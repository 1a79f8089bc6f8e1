import ProviderNest.Proofs.Division

/-!
# A rebuilt object read anew

An object that is laid out anew is read again, and its body is divided again. `rebuild_encloses`
says what the new text has at the place of the object: braces that belong together, with the cells
`Text.bodyCells` between them, which are the lines of its entries. A flat entry has the nested shape
there and every other entry the cells it had (`Source.anew`).

Where the brackets of the object are balanced and no entry ends inside a comment or a literal, each
comma that is put in divides, and no other comma does (`divide_bodyCells`). So the new entries are
the old ones in the same order (`Rebuilt`).
-/

namespace ProviderNest

open LexState Source

/-- The text with the bytes of a span replaced. -/
def Text.replace (t : Text) (x : Span) (u : Text) : Text := t.take x.start ++ u ++ t.drop x.stop

/-- Inside a comment that ends with its line, or inside a literal. -/
def LexState.Dangling : LexState → Prop
  | line | quoted _ | escaped _ => True
  | code | opening | block | closing => False

instance (st : LexState) : Decidable st.Dangling := by
  cases st <;> (unfold LexState.Dangling; infer_instance)

/-- What ends at position `i` ends inside a comment that ends with its line, or inside a literal. -/
def Text.Dangles (t : Text) (i : Nat) : Prop := (t.stateAt i).Dangling

instance (t : Text) (i : Nat) : Decidable (t.Dangles i) :=
  inferInstanceAs (Decidable (t.stateAt i).Dangling)

/-- The kind of a comma at the end of a line, where the line ends at position `i`. -/
def Text.commaKind (t : Text) (i : Nat) : Kind :=
  ((t.stateAt i).step Byte.comma (some Byte.newline)).1

/-- The cells of an entry that is written anew on a line indented by `inner`. -/
def Source.anew (s : Source) (inner : Text) (e : Span) : List Cell :=
  match s.flatIn? e with
  | none => s.slice e.start e.stop
  | some f => s.slice e.start f.name.stop ++ (codeCells (front inner) ++
      (s.slice f.body.start f.body.stop ++ (codeCells (back inner) ++ s.slice f.body.stop e.stop)))

/-- The cells between the braces of an object that is laid out anew. -/
def Text.bodyCells (t inner indent : Text) : List Span → List Cell
  | [] => codeCells (Byte.newline :: indent)
  | e :: es => codeCells (Byte.newline :: inner) ++
      ((ofText t).anew inner e ++ ⟨Byte.comma, t.commaKind e.stop⟩ :: bodyCells t inner indent es)

/-! ## The cells of a rebuilt object -/

/-- Behind a comma and a newline that lead back to code, the newline is code. -/
theorem LexState.Settles.cells {st : LexState} {b next : Option UInt8} (h : st.Settles)
    (he : st.Expects b) : st.cells [Byte.comma, Byte.newline] next =
      [⟨Byte.comma, (st.step Byte.comma (some Byte.newline)).1⟩, ⟨Byte.newline, .code⟩] := by
  have h := h next
  simp only [after_cons, after_nil, cells_cons, cells_nil, List.head?_cons, Option.some_or,
    List.head?_nil, Option.none_or] at h ⊢
  cases st with
  | code | line | closing => rfl
  | opening | block => cases h
  | quoted q => grind [LexState.step, Expects, show Kind.isQuote Byte.comma = false by decide,
      show Kind.isQuote Byte.newline = false by decide]
  | escaped q => grind [LexState.step, Expects, show Kind.isQuote Byte.newline = false by decide]

section
variable {t : Text} {i close : Nat} {e : Span} {es : List Span} {inner indent : Text}

/-- The cells of an entry with its changes woven in. -/
theorem weave_anew (he : e.start ≤ e.stop) (hin : inner.IsIndent) :
    weave (ofText t).slice (Change.headCells t) Change.tailCells e.stop e.start
      (((ofText t).flatIn? e).toList.map (FlatEntry.change inner)) = (ofText t).anew inner e := by
  unfold Source.anew
  cases hf : (ofText t).flatIn? e with
  | none => rfl
  | some f =>
    obtain ⟨⟨colon, hflat⟩, -⟩ := flatIn?_eq_some he hf
    simp only [Option.toList_some, List.map_cons, List.map_nil, weave, headCells_flat hflat hin,
      List.append_assoc]
    rfl

theorem weave_gap {j stop : Nat} {text : Text} {cs : List Change} :
    weave (ofText t).slice (Change.headCells t) Change.tailCells stop i (.gap i j text :: cs) =
      (Change.gap i j text).headCells t ++
        weave (ofText t).slice (Change.headCells t) Change.tailCells stop j cs := by
  simp [weave, Change.gap, Change.tailCells, slice_self]

/-- The cells that lay out a gap. -/
theorem headCells_gap {j : Nat} {lead u : Text} (hu : u.IsIndent)
    (h : (lead = [] ∧ t.stateAt i = .code) ∨ (lead = [Byte.comma] ∧ (t.stateAt i).Settles)) :
    (Change.gap i j (lead ++ Byte.newline :: u)).headCells t =
      (t.stateAt i).cells lead (some Byte.newline) ++ codeCells (Byte.newline :: u) := by
  have hplain : ∀ b ∈ Byte.newline :: u, Plain b := by
    intro b hb
    rcases List.mem_cons.1 hb with rfl | hb
    · decide
    · exact (hu.quiet hb).1.1
  rw [Change.headCells, Change.gap]
  dsimp only
  rcases h with ⟨rfl, hc⟩ | ⟨rfl, hs⟩
  · rw [hc]
    exact (after_cells_plain hplain none).2
  · have hcells : (t.stateAt i).cells [Byte.comma, Byte.newline] (u.head?.or none) = _ :=
      hs.cells (stateAt_expects t i)
    have hrest := (after_cells_plain (fun b hb => hplain b (List.mem_cons_of_mem _ hb)) none).2
    rw [show [Byte.comma] ++ Byte.newline :: u = [Byte.comma, Byte.newline] ++ u from rfl,
      cells_append, hs, hcells, hrest]
    rfl

/-- **The rest of an object with its layout woven in.** -/
theorem weave_layout {lead : Text} (h : Laid t close i es) (hin : inner.IsIndent)
    (hi : indent.IsIndent)
    (hlead : (lead = [] ∧ t.stateAt i = .code) ∨ (lead = [Byte.comma] ∧ (t.stateAt i).Settles)) :
    weave (ofText t).slice (Change.headCells t) Change.tailCells close i
      ((ofText t).layout inner indent close lead i es) =
      (t.stateAt i).cells lead (some Byte.newline) ++ t.bodyCells inner indent es := by
  induction h generalizing lead with
  | @nil i hle hloose =>
    rw [layout, weave_gap, headCells_gap hi hlead, weave, slice_self, List.append_nil]
    rfl
  | @cons i e es he hrest ih =>
    have hle := Nat.le_of_lt he.lt
    rw [layout, weave_gap, headCells_gap hin hlead,
      weave_append (slice_append (ofText t)) (follow_flatIn? hle inner)
        (follow_layout inner indent [Byte.comma] hrest), ih (.inr ⟨rfl, he.behind⟩),
      weave_anew hle hin, List.append_assoc]
    rfl

/-- A text with its object rebuilt is the text with the layout carried out. -/
theorem replace_eq_changed {b : Braces} {cs : List Change} {x : Text}
    (hf : Follow Change.span b.opening (b.closing + 1) cs) (hs : b.closing < t.length)
    (hx : x = (ofText t).changed (b.closing + 1) b.opening cs) :
    t.replace b.span x = (ofText t).changed t.length 0 cs := by
  have hrest : Follow Change.span (b.closing + 1) t.length [] := .nil hs
  have hall := changed_append (s := ofText t) hf hrest
  rw [List.append_nil, changed_nil] at hall
  rw [← bytes_changed (Nat.zero_le b.opening) (by simpa using hf.append hrest), hall, ← hx,
    Text.replace, Braces.span, List.append_assoc]
  congr 1
  · rw [bytes_eq, map_byte_slice]
    simp
  · congr 1
    rw [bytes_eq, map_byte_slice, List.take_of_length_le (by simp)]

section
variable {a : Nat} {b : Braces}

/-- The changes of an object lie between its braces. -/
theorem follow_object (ht : t.WellFormed) (h : (ofText t).closing? b.opening = some b.closing)
    (indent : Text) :
    Follow Change.span (b.opening + 1) b.closing ((Hit.object a b).changes (ofText t) indent) :=
  follow_layout _ indent [] (laid_entries ht h)

theorem made_object (ht : t.WellFormed) (hi : indent.IsIndent)
    (h : (ofText t).closing? b.opening = some b.closing) :
    ∀ c ∈ (Hit.object a b).changes (ofText t) indent, c.Made t := by
  intro c hc
  rcases (nests_object ht h hi).mem c hc with ⟨f, -, colon, u, hf, hu, rfl⟩ |
    ⟨i, j, lead, u, hg, hu, rfl⟩
  · exact .flat hf hu
  · exact .gap hg hu

/-- The body of an object with its changes woven in. -/
theorem weave_object (ht : t.WellFormed) (hi : indent.IsIndent)
    (h : (ofText t).closing? b.opening = some b.closing) :
    weave (ofText t).slice (Change.headCells t) Change.tailCells b.closing (b.opening + 1)
      ((Hit.object a b).changes (ofText t) indent) =
      t.bodyCells (indent ++ .ofString "  ") indent
        ((ofText t).entries (b.opening + 1) b.closing) := by
  have hweave := weave_layout (laid_entries ht h) (Text.isIndent_deeper hi) hi
    (.inl ⟨rfl, stateAt_succ (closing?_spec h).1⟩)
  rwa [cells_nil, List.nil_append] at hweave

/-- The braces of a rebuilt body belong together. -/
theorem closers_bodyCells (ht : t.WellFormed) (hi : indent.IsIndent)
    (h : (ofText t).closing? b.opening = some b.closing) :
    closers (t.bodyCells (indent ++ .ofString "  ") indent
      ((ofText t).entries (b.opening + 1) b.closing)) 0 = some 0 := by
  rw [← weave_object (a := 0) ht hi h, closers_weave (follow_object ht h indent) fun c hc =>
    (made_object ht hi h c hc).balanced]
  exact closers_of_closing? h

end

/-- **A rebuilt object is read as braces again, with its lines between them.** -/
theorem rebuild_encloses {b : Braces} (ht : t.WellFormed) (hi : indent.IsIndent)
    (h : (ofText t).closing? b.opening = some b.closing) :
    ∃ out, (ofText t).rebuild b indent = .ok out ∧
      Encloses (ofText (t.replace b.span out)) b.opening (b.opening + out.length)
        (t.bodyCells (indent ++ .ofString "  ") indent
          ((ofText t).entries (b.opening + 1) b.closing)) ∧
      (ofText (t.replace b.span out)).closing? b.opening = some (b.opening + out.length - 1) := by
  obtain ⟨ho, hlt, hc⟩ := closing?_spec h
  have hsize : b.closing < t.length := by simpa using lt_size_of_codeByte? hc
  have hfollow := follow_object (a := 0) ht h indent
  have hmade := made_object (a := 0) ht hi h
  have hweave := weave_object (a := 0) ht hi h
  have hclosers := closers_bodyCells ht hi h
  refine ⟨_, rebuild_eq ht indent h, ?_⟩
  generalize hx : (ofText t).changed (b.closing + 1) b.opening _ = out
  generalize (Hit.object 0 b).changes (ofText t) indent = cs at *
  generalize t.bodyCells _ _ _ = ds at *
  have hreplace := replace_eq_changed ((hfollow.of_le (Nat.le_succ _)).to_le (Nat.le_succ _)) hsize
    hx.symm
  have hwide := (hfollow.of_le (Nat.zero_le _)).to_le (Nat.le_of_lt hsize)
  -- The cells of the new text: what is before the brace, the braces, and what is behind them.
  have hcells : (ofText (t.replace b.span out)).cells.toList = (ofText t).slice 0 b.opening ++
      (⟨Byte.openBrace, .code⟩ :: (ds ++
        ⟨Byte.closeBrace, .code⟩ :: (ofText t).slice (b.closing + 1) t.length)) := by
    have hread := (relex hwide fun c hc => (hmade c hc).fits ht).1
    have hstart : t.stateAt 0 = .code := rfl
    rw [hstart] at hread
    rw [toList_ofText, hreplace, hread,
      ← keep_weave (slice_append (ofText t)) (Nat.zero_le (b.opening + 1))
        (hfollow.to_le (Nat.le_of_lt hsize)),
      ← List.append_nil cs,
      weave_append (slice_append (ofText t)) hfollow (.nil (Nat.le_of_lt hsize)), hweave,
      weave, ← slice_append _ (Nat.zero_le b.opening) (Nat.le_succ _),
      slice_eq_cons _ (Nat.lt_succ_self _) (codeByte?_eq_some.1 ho), slice_self,
      slice_eq_cons _ hsize (codeByte?_eq_some.1 hc)]
    simp
  have hbefore : ((ofText t).slice 0 b.opening).length = b.opening := by
    rw [length_slice _ (Nat.zero_le _) (by rw [size_ofText]; omega), Nat.sub_zero]
  have hencl := Encloses.of_cells hcells
  rw [hbefore] at hencl
  have hlen := congrArg List.length hcells
  rw [Array.length_toList, ← size, size_ofText, Text.replace, Braces.span] at hlen
  simp only [List.length_append, List.length_cons, List.length_take, List.length_drop] at hlen
  rw [hbefore, length_slice _ (by omega) (by rw [size_ofText])] at hlen
  rw [show b.opening + ds.length + 2 = b.opening + out.length by omega] at hencl
  exact ⟨hencl, hencl.closing hclosers⟩

end

/-! ## The nested shape by its cells -/

/-- The cells between the braces of a nested entry with the configuration `body`. -/
def nestCells (inner : Text) (body : List Cell) : List Cell :=
  codeCells (Byte.newline :: (inner ++ Text.ofString "  ")) ++
    (codeCells (nestedKey ++ Text.ofString ": ") ++ body ++
      .comma :: codeCells (Byte.newline :: inner))

section
variable {t inner indent : Text} {i : Nat} {e : Span} {f : FlatEntry} {body : List Cell}

/-- The nested shape around a configuration. -/
theorem cells_around (inner : Text) (body r : List Cell) :
    codeCells (front inner) ++ (body ++ (codeCells (back inner) ++ r)) =
      codeCells (Text.ofString ": ") ++ (⟨Byte.openBrace, .code⟩ ::
        (nestCells inner body ++ ⟨Byte.closeBrace, .code⟩ :: r)) := by
  have hfront : front inner = Text.ofString ": " ++ Byte.openBrace :: (Byte.newline ::
      (inner ++ Text.ofString "  ") ++ (nestedKey ++ Text.ofString ": ")) := by
    rw [front, show Text.ofString ": \x7b\n" =
      Text.ofString ": " ++ [Byte.openBrace, Byte.newline] by decide]
    simp
  have hback : back inner = Byte.comma :: (Byte.newline :: inner ++ [Byte.closeBrace]) := by
    rw [back, show Text.ofString ",\n" = [Byte.comma, Byte.newline] by decide]
    simp only [List.cons_append, List.nil_append]
    rfl
  rw [hfront, hback, nestCells]
  simp [codeCells]

theorem anew_of_none (h : (ofText t).flatIn? e = none) :
    (ofText t).anew inner e = (ofText t).slice e.start e.stop := by
  rw [Source.anew, h]

theorem anew_of_some (h : (ofText t).flatIn? e = some f) :
    (ofText t).anew inner e = (ofText t).slice e.start f.name.stop ++
      (codeCells (Text.ofString ": ") ++ (⟨Byte.openBrace, .code⟩ ::
        (nestCells inner ((ofText t).slice f.body.start f.body.stop) ++
          ⟨Byte.closeBrace, .code⟩ :: (ofText t).slice f.body.stop e.stop))) := by
  rw [Source.anew, h, ← cells_around]

theorem inert_line (hi : indent.IsIndent) : Inert (codeCells (Byte.newline :: indent)) :=
  inert_of_isTrivia (isTrivia_line hi)

theorem inert_default : Inert (codeCells (nestedKey ++ Text.ofString ": ")) := by
  decide

/-- Between the braces of a nested entry the depth is level where it is in the configuration. -/
theorem upright_nestCells (hin : inner.IsIndent) (hb : Piece 0 body) :
    Upright 0 (nestCells inner body) ∧ depthOf (nestCells inner body) = 0 := by
  have hpad := inert_line (Text.isIndent_deeper hin)
  have htail := inert_line hin
  have hentry : Piece 0 (codeCells (nestedKey ++ Text.ofString ": ") ++ body) :=
    inert_default.piece.append hb
  have hcomma : Cell.comma.depth = 0 := rfl
  have hclose : depthOf (codeCells (nestedKey ++ Text.ofString ": ") ++ body) = 0 := by
    have := hentry.closes
    omega
  constructor
  · rw [nestCells, upright_append, hpad.depthOf, Int.add_zero, upright_append, hclose, Int.add_zero]
    refine ⟨hpad.upright (Int.le_refl 0), hentry.upright, Int.le_refl 0, ?_⟩
    rw [hcomma, Int.add_zero]
    exact htail.upright (Int.le_refl 0)
  · rw [nestCells, depthOf_append, depthOf_append, hpad.depthOf, hclose, depthOf_cons,
      htail.depthOf, hcomma]
    rfl

/-- A nested entry holds one entry. -/
theorem divide_nestCells (hin : inner.IsIndent) (hb : Piece 0 body) :
    divide 0 (nestCells inner body) =
      [codeCells (nestedKey ++ Text.ofString ": ") ++ body].map
        (codeCells (Byte.newline :: (inner ++ Text.ofString "  ")) ++ ·) ++
        [codeCells (Byte.newline :: inner)] := by
  have hpiece := (inert_line (Text.isIndent_deeper hin)).piece.append
    (inert_default.piece.append hb)
  rw [nestCells, ← List.append_assoc, divide_piece hpiece,
    divide_of_undivided ((inert_line hin).undivided 0)]
  rfl

/-! ## The lines of a rebuilt object -/

/-- The configuration of a flat entry is level if its entry is. -/
theorem piece_body (he : e.start ≤ e.stop) (hs : e.stop ≤ t.length)
    (hf : (ofText t).flatIn? e = some f) (h : Piece 0 ((ofText t).slice e.start e.stop)) :
    Inert ((ofText t).slice e.start f.name.stop) ∧
      Piece 0 ((ofText t).slice f.body.start f.body.stop) ∧
      Inert ((ofText t).slice f.body.stop e.stop) := by
  obtain ⟨⟨colon, hflat⟩, h1, h2, h3, h4⟩ := flatIn?_eq_some he hf
  obtain ⟨h5, h6, h7, h8, h9⟩ := hflat.order
  have hkey := inert_key hflat.key
  have hlead := inert_of_isTrivia ((triviaRun_iff (by omega)).1 h3)
  have hbehind := inert_of_isTrivia ((triviaRun_iff (by rw [size_ofText]; exact hs)).1 h4)
  rw [← slice_append _ (Nat.le_of_lt h5) (show f.name.stop ≤ f.body.start by omega)] at hkey
  have hname : Inert ((ofText t).slice e.start f.name.stop) := by
    rw [← slice_append _ h1 (Nat.le_of_lt h5)]
    exact hlead.append fun c hc => hkey c (List.mem_append_left _ hc)
  have hfront : Inert ((ofText t).slice e.start f.body.start) := by
    rw [← slice_append _ (show e.start ≤ f.name.stop by omega) (by omega)]
    exact hname.append fun c hc => hkey c (List.mem_append_right _ hc)
  refine ⟨hname, ?_, hbehind⟩
  rw [← slice_append _ (show e.start ≤ f.body.start by omega) (by omega),
    ← slice_append _ (show f.body.start ≤ f.body.stop by omega) h2] at h
  exact (hfront.piece_iff hbehind).1 h

/-- An entry that is written anew is level if it was. -/
theorem piece_anew (hin : inner.IsIndent) (he : e.start ≤ e.stop) (hs : e.stop ≤ t.length)
    (h : Piece 0 ((ofText t).slice e.start e.stop)) : Piece 0 ((ofText t).anew inner e) := by
  cases hf : (ofText t).flatIn? e with
  | none => rwa [anew_of_none hf]
  | some f =>
    obtain ⟨hname, hbody, hbehind⟩ := piece_body he hs hf h
    obtain ⟨hup, hz⟩ := upright_nestCells hin hbody
    have hbraces := Piece.braces hup hz
    have hcolon : Inert (codeCells (Text.ofString ": ")) := by decide
    have := hname.piece.append (hcolon.piece.append (hbraces.append hbehind.piece))
    rw [anew_of_some hf]
    simpa using this

/-- **The pieces of a rebuilt body are its lines.** -/
theorem divide_bodyCells {es : List Span} (hin : inner.IsIndent) (hi : indent.IsIndent)
    (hes : ∀ e ∈ es, Piece 0 ((ofText t).anew inner e) ∧ t.commaKind e.stop = .code) :
    divide 0 (t.bodyCells inner indent es) =
      (es.map ((ofText t).anew inner)).map (codeCells (Byte.newline :: inner) ++ ·) ++
        [codeCells (Byte.newline :: indent)] := by
  induction es with
  | nil => exact divide_of_undivided ((inert_line hi).undivided 0)
  | cons e es ih =>
    obtain ⟨hpiece, hkind⟩ := hes e List.mem_cons_self
    rw [Text.bodyCells, hkind, ← List.append_assoc,
      divide_piece ((inert_line hin).piece.append hpiece),
      ih fun e he => hes e (List.mem_cons_of_mem _ he)]
    rfl

end

/-- The entries of an object with balanced brackets are level. -/
theorem piece_of_mem_entries {t : Text} {o c : Nat} (h : (ofText t).closing? o = some c)
    (hb : (ofText t).Balanced (o + 1) c) : ∀ e ∈ (ofText t).entries (o + 1) c,
      Piece 0 ((ofText t).slice e.start e.stop) := by
  obtain ⟨-, hlt, hc⟩ := closing?_spec h
  have hsize := Nat.le_of_lt (lt_size_of_codeByte? hc)
  obtain ⟨hup, hz⟩ := hb.cells hlt hsize
  intro e he
  obtain ⟨x, hx, hxe⟩ := List.mem_filterMap.1 he
  obtain ⟨h1, h2, hm⟩ := mem_segments hlt hsize hx
  obtain ⟨⟨h3, h4, h5⟩, h6, h7, -⟩ := (trimBlank?_eq_some h1 h2).1 hxe
  rw [bytes_eq] at h6 h7
  have hpiece := piece_of_mem_divide hup hz _ hm
  rw [← slice_append _ h3 (Nat.le_trans h4 h5), ← slice_append _ h4 h5] at hpiece
  exact ((inert_of_blanks h6).piece_iff (inert_of_blanks h7)).1 hpiece

/-! ## The entries of a rebuilt object -/

/-- A blank character at the end of a text does not reach before a part that begins with a
character. -/
theorem Text.blank_suffix_append {u v : Text} {c : Char} (hc : c ∈ blanks) (hv : v ≠ [])
    (hs : Starts v) (h : String.utf8EncodeChar c <:+ u ++ v) : String.utf8EncodeChar c <:+ v := by
  rcases List.suffix_or_suffix_of_suffix h (List.suffix_append u v) with hp | ⟨w, hw⟩
  · exact hp
  cases w with
  | nil => exact ⟨[], by rw [← hw, List.nil_append, List.nil_append]⟩
  | cons x w =>
    -- The first byte of `v` would be a byte inside the character.
    obtain ⟨y, r, rfl⟩ := List.exists_cons_of_ne_nil hv
    have hy := continuation_of_mem_loose c (List.mem_cons_of_mem _ hc) y (by rw [← hw]; simp)
    rw [hs y rfl] at hy
    cases hy

section
variable {t inner : Text} {i : Nat} {e : Span} {f : FlatEntry}

/-- What ends a flat entry is its closing brace with the trivia behind it. -/
theorem bytes_closeBrace (he : e.start ≤ e.stop) (hf : (ofText t).flatIn? e = some f) :
    (ofText t).bytes ⟨f.body.stop - 1, e.stop⟩ =
      Byte.closeBrace :: (ofText t).bytes ⟨f.body.stop, e.stop⟩ := by
  obtain ⟨⟨colon, hflat⟩, -, h2, -⟩ := flatIn?_eq_some he hf
  obtain ⟨h3, h4, h5, h6, h7⟩ := hflat.order
  obtain ⟨-, -, hclose⟩ := closing?_spec hflat.closing
  rw [bytes_eq, slice_eq_cons _ (show f.body.stop - 1 < e.stop by omega)
    (codeByte?_eq_some.1 hclose), Nat.sub_add_cancel (by omega), List.map_cons, bytes_eq]

/-- Writing a flat entry anew keeps its beginning and its end. -/
theorem exists_bytes_anew (inner : Text) (he : e.start ≤ e.stop)
    (hf : (ofText t).flatIn? e = some f) :
    ∃ m : Text, ((ofText t).anew inner e).map Cell.byte =
      (ofText t).bytes ⟨e.start, f.name.stop⟩ ++ (Byte.colon :: m ++
        (ofText t).bytes ⟨f.body.stop - 1, e.stop⟩) := by
  rw [anew_of_some hf, bytes_closeBrace he hf, bytes_eq, bytes_eq,
    show Text.ofString ": " = [Byte.colon, Byte.space] by decide]
  refine ⟨Byte.space :: Byte.openBrace ::
    (nestCells inner ((ofText t).slice f.body.start f.body.stop)).map Cell.byte, ?_⟩
  simp

/-- An entry that is written anew has no blank at its ends if it had none. -/
theorem trimmed_anew (he : IsEntry t i e) (h : Text.Trimmed ((ofText t).bytes e)) :
    Text.Trimmed (((ofText t).anew inner e).map Cell.byte) := by
  have hle := Nat.le_of_lt he.lt
  have hsize := he.stop_le
  cases hf : (ofText t).flatIn? e with
  | none =>
    rw [anew_of_none hf, ← bytes_eq]
    exact h
  | some f =>
    obtain ⟨⟨colon, hflat⟩, h1, h2, -⟩ := flatIn?_eq_some hle hf
    obtain ⟨h3, h4, h5, h6, h7⟩ := hflat.order
    have hname : (ofText t).bytes ⟨e.start, f.name.stop⟩ ≠ [] := by
      refine List.ne_nil_of_length_pos ?_
      rw [length_bytes (by dsimp only; omega) (by dsimp only; omega)]
      dsimp only
      omega
    have hlast := bytes_closeBrace hle hf
    obtain ⟨m, hm⟩ := exists_bytes_anew inner hle hf
    rw [hm]
    refine ⟨by simp [hname], fun c hc hp => ?_, fun c hc hp => ?_⟩
    · have hp := Text.loose_prefix_append (List.mem_cons_of_mem _ hc) hname
        (fun x hx => by cases hx; decide) hp
      refine h.front c hc (hp.trans ?_)
      rw [← bytes_append (i := e.start) (show e.start ≤ f.name.stop by omega)
        (show f.name.stop ≤ e.stop by omega)]
      exact List.prefix_append _ _
    · rw [← List.append_assoc] at hp
      have hp := Text.blank_suffix_append hc (by rw [hlast]; exact List.cons_ne_nil _ _)
        (fun x hx => by rw [hlast] at hx; cases hx; decide) hp
      refine h.back c hc (hp.trans ?_)
      rw [← bytes_append (i := e.start) (show e.start ≤ f.body.stop - 1 by omega)
        (show f.body.stop - 1 ≤ e.stop by omega)]
      exact List.suffix_append _ _

end

/-- The span `e` has the cells `cs`, and the cells `pad` come before them. -/
structure Placed (s : Source) (pad : List Cell) (e : Span) (cs : List Cell) : Prop where
  le : e.start ≤ e.stop
  stop_le : e.stop ≤ s.size
  pad_le : pad.length ≤ e.start
  before : s.slice (e.start - pad.length) e.start = pad
  slice_eq : s.slice e.start e.stop = cs

/-- A segment that is a trimmed part behind a blank one. -/
theorem Placed.of_segment {s : Source} {x : Span} {pad cs : List Cell} (hx : x.start ≤ x.stop)
    (hs : x.stop ≤ s.size) (h : s.slice x.start x.stop = pad ++ cs)
    (hpad : Text.MadeOf Text.blanks (pad.map Cell.byte)) (hcs : Text.Trimmed (cs.map Cell.byte)) :
    ∃ e, s.trimBlank? x = some e ∧ Placed s pad e cs := by
  obtain ⟨h1, h2, h3⟩ := slice_split hx hs h
  refine ⟨⟨x.start + pad.length, x.stop⟩, (trimBlank?_eq_some hx hs).2 ⟨⟨Nat.le_add_right _ _, h1,
    Nat.le_refl _⟩, ?_, ?_, ?_⟩, ⟨h1, hs, Nat.le_add_left _ _, ?_, h3⟩⟩
  · rwa [bytes_eq, h2]
  · rw [bytes_self]
    exact .nil
  · rwa [bytes_eq, h3]
  · rwa [Nat.add_sub_cancel]

/-- **The entries of a body by its pieces,** where each piece but the last is trimmed behind a
blank part and the last is blank. -/
theorem entries_of_divide {s : Source} {i j : Nat} {pad tail : List Cell}
    {css : List (List Cell)} (h : i ≤ j) (hs : j ≤ s.size)
    (hd : divide 0 (s.slice i j) = css.map (pad ++ ·) ++ [tail])
    (hpad : Text.MadeOf Text.blanks (pad.map Cell.byte))
    (htail : Text.MadeOf Text.blanks (tail.map Cell.byte))
    (hcss : ∀ cs ∈ css, Text.Trimmed (cs.map Cell.byte)) :
    List.Forall₂ (Placed s pad) (s.entries i j) css := by
  have hall := slice_segments h hs
  rw [hd] at hall
  clear hd
  rw [entries]
  generalize s.segments i j = xs at hall
  induction css generalizing xs with
  | nil =>
    obtain ⟨x, rfl, h1, h2, h3⟩ : ∃ x, xs = [x] ∧ x.start ≤ x.stop ∧ x.stop ≤ s.size ∧
        s.slice x.start x.stop = tail := by
      cases hall with
      | cons hx hrest =>
        cases hrest
        exact ⟨_, rfl, hx⟩
    rw [List.filterMap_cons_none (trimBlank?_of_blank h1 h2 (by rwa [bytes_eq, h3]))]
    exact .nil
  | cons cs css ih =>
    cases hall with
    | cons hx hrest =>
      obtain ⟨h1, h2, h3⟩ := hx
      obtain ⟨e, he, hplaced⟩ := Placed.of_segment h1 h2 h3 hpad (hcss cs List.mem_cons_self)
      rw [List.filterMap_cons_some he]
      exact .cons hplaced (ih (fun cs hm => hcss cs (List.mem_cons_of_mem _ hm)) _ hrest)

/-- Behind a line break and an indentation a word may begin. -/
theorem Placed.edge {s : Source} {u : Text} {e : Span} {cs : List Cell}
    (h : Placed s (codeCells (Byte.newline :: u)) e cs) (hu : u.IsIndent) :
    s.inWord (e.start - 1) = false := by
  have hle := h.le
  have hstop := h.stop_le
  have hpad := h.pad_le
  rw [List.length_map, List.length_cons] at hpad
  have hrun : s.TriviaRun (e.start - (codeCells (Byte.newline :: u)).length) e.start :=
    (triviaRun_iff (by omega)).2 (by rw [h.before]; exact isTrivia_line hu)
  rw [List.length_map, List.length_cons] at hrun
  exact inWord_of_isTrivia (hrun (e.start - 1) (by omega) (by omega))

/-- The entry `e'` of `s'` is the nested shape of the flat entry `f` that makes up the entry `e` of
`s`: the name `name` and its braces `b`, with one entry between them, and `default` is its key. Its
configuration, the trivia around the entry and the name are the same byte for byte. -/
structure Wrapped (s s' : Source) (e e' : Span) (f : FlatEntry) (name : Span) (b : Braces)
    (entry : Span) (value : Nat) : Prop where
  start_le : e'.start ≤ name.start
  lead : s'.TriviaRun e'.start name.start
  before : s'.bytes ⟨e'.start, name.start⟩ = s.bytes ⟨e.start, f.name.start⟩
  key : s'.IsKey ⟨name, b.opening⟩ name.stop
  name_eq : s'.bytes name = s.bytes f.name
  closing : s'.closing? b.opening = some b.closing
  entries_eq : s'.entries (b.opening + 1) b.closing = [entry]
  default_key : s'.IsKey ⟨⟨entry.start, entry.start + nestedKey.length⟩, value⟩
    (entry.start + nestedKey.length)
  default_eq : s'.bytes ⟨entry.start, entry.start + nestedKey.length⟩ = nestedKey
  value_closing : s'.closing? value = some (entry.stop - 1)
  body_eq : s'.bytes ⟨value, entry.stop⟩ = s.bytes f.body
  lt_stop : b.closing < e'.stop
  trail : s'.TriviaRun (b.closing + 1) e'.stop
  behind : s'.bytes ⟨b.closing + 1, e'.stop⟩ = s.bytes ⟨f.body.stop, e.stop⟩

theorem neutral_nestCells {inner : Text} {body : List Cell} (hin : inner.IsIndent)
    (h : Neutral body) : Neutral (nestCells inner body) := by
  have hline {u : Text} (hu : u.IsIndent) : Neutral (codeCells (Byte.newline :: u)) := by
    rw [show codeCells (Byte.newline :: u) = codeCells [Byte.newline] ++ codeCells u from rfl]
    exact (neutral_codeCells (by decide)).append (neutral_indent hu)
  rw [nestCells, show Cell.comma :: codeCells (Byte.newline :: inner) =
    codeCells [Byte.comma] ++ codeCells (Byte.newline :: inner) from rfl]
  refine (hline (Text.isIndent_deeper hin)).append (.append (.append ?_ h) (.append ?_ (hline hin)))
  · exact neutral_codeCells (by decide)
  · exact neutral_codeCells (by decide)

section
variable {t inner : Text} {s' : Source} {e e' : Span} {f : FlatEntry} {pad : List Cell}

/-- The one entry of a nested entry is trimmed. -/
theorem trimmed_default {body : List Cell}
    (hb : ∃ ds, body = ⟨Byte.openBrace, .code⟩ :: (ds ++ [⟨Byte.closeBrace, .code⟩])) :
    Text.Trimmed ((codeCells (nestedKey ++ Text.ofString ": ") ++ body).map Cell.byte) := by
  obtain ⟨ds, rfl⟩ := hb
  rw [List.map_append, map_byte_codeCells, List.map_cons, List.map_append]
  have hends : ∀ c ∈ Text.blanks, (String.utf8EncodeChar c).head? ≠ some 0x64 ∧
      ¬ String.utf8EncodeChar c <:+ [Byte.closeBrace] := by decide
  refine ⟨by simp, fun c hc hp => ?_, fun c hc hp => ?_⟩
  · obtain ⟨b, r, hr, -⟩ := Text.encode_shape c
    have := (hends c hc).1
    rw [hr] at hp this
    obtain ⟨u, hu⟩ := hp
    exact this (congrArg List.head? hu)
  · rw [← List.cons_append, ← List.append_assoc] at hp
    exact (hends c hc).2 (Text.blank_suffix_append hc (List.cons_ne_nil _ _)
      (fun x hx => by cases hx; decide) hp)

/-- Between the braces of a nested entry stands one entry, in a line of its own. -/
theorem exists_entry_of_nestCells {s : Source} {i j : Nat} {ds : List Cell} (hij : i ≤ j)
    (hj : j ≤ s.size) (hin : inner.IsIndent)
    (hpiece : Piece 0 (⟨Byte.openBrace, .code⟩ :: (ds ++ [⟨Byte.closeBrace, .code⟩])))
    (h : s.slice i j =
      nestCells inner (⟨Byte.openBrace, .code⟩ :: (ds ++ [⟨Byte.closeBrace, .code⟩]))) :
    ∃ entry, s.entries i j = [entry] ∧
      Placed s (codeCells (Byte.newline :: (inner ++ Text.ofString "  "))) entry
        (codeCells (nestedKey ++ Text.ofString ": ") ++
          ⟨Byte.openBrace, .code⟩ :: (ds ++ [⟨Byte.closeBrace, .code⟩])) := by
  have hentries := entries_of_divide hij hj (by rw [h]; exact divide_nestCells hin hpiece)
    (by rw [map_byte_codeCells]; exact (Text.isIndent_deeper hin).madeOf_line)
    (by rw [map_byte_codeCells]; exact hin.madeOf_line)
    (fun cs hcs => List.mem_singleton.1 hcs ▸ trimmed_default ⟨_, rfl⟩)
  generalize s.entries i j = es at hentries ⊢
  cases hentries with
  | cons hx hrest =>
    cases hrest
    exact ⟨_, rfl, hx⟩

/-- The key and the braces of that entry. -/
theorem Placed.default_key {s : Source} {u : Text} {entry : Span} {ds : List Cell}
    (h : Placed s (codeCells (Byte.newline :: u)) entry
      (codeCells (nestedKey ++ Text.ofString ": ") ++
        ⟨Byte.openBrace, .code⟩ :: (ds ++ [⟨Byte.closeBrace, .code⟩])))
    (hu : u.IsIndent) (hds : closers ds 0 = some 0) :
    ∃ value, s.IsKey ⟨⟨entry.start, entry.start + nestedKey.length⟩, value⟩
        (entry.start + nestedKey.length) ∧
      s.bytes ⟨entry.start, entry.start + nestedKey.length⟩ = nestedKey ∧
      s.closing? value = some (entry.stop - 1) ∧
      s.slice value entry.stop =
        ⟨Byte.openBrace, .code⟩ :: (ds ++ [⟨Byte.closeBrace, .code⟩]) := by
  obtain ⟨value, hkey, hname, hlt, hvalue⟩ := exists_isKey_of_slice h.le h.stop_le h.slice_eq
    (by decide) (by decide) (.inr (h.edge hu))
  have hencl : Encloses s value entry.stop ds := ⟨Nat.le_of_lt hlt, h.stop_le, hvalue⟩
  exact ⟨value, hkey, hname, hencl.closing hds, hvalue⟩

/-- **A flat entry that is written anew is its nested shape.** -/
theorem Placed.wrapped (hf : (ofText t).flatIn? e = some f) (he : e.start ≤ e.stop)
    (hs : e.stop ≤ t.length) (hpiece : Piece 0 ((ofText t).slice e.start e.stop))
    (hin : inner.IsIndent)
    (h : Placed s' (codeCells (Byte.newline :: inner)) e' ((ofText t).anew inner e)) :
    ∃ name b entry value, Wrapped (ofText t) s' e e' f name b entry value := by
  obtain ⟨⟨colon, hflat⟩, h1, h2, h3, h4⟩ := flatIn?_eq_some he hf
  obtain ⟨h5, h6, h7, h8, h9⟩ := hflat.order
  obtain ⟨-, hbody, -⟩ := piece_body he hs hf hpiece
  have hinside := hflat.encloses.slice_eq
  have hslice := h.slice_eq
  rw [anew_of_some hf, ← slice_append _ h1 (Nat.le_of_lt h5), hflat.key.word.slice_eq,
    List.append_assoc, ← List.append_assoc (codeCells _) (codeCells _), ← List.map_append] at hslice
  -- The trivia in front and the key.
  obtain ⟨h10, hlead, hslice⟩ := slice_split h.le h.stop_le hslice
  have hrun : s'.TriviaRun e'.start
      (e'.start + ((ofText t).slice e.start f.name.start).length) := by
    refine (triviaRun_iff (Nat.le_trans h10 h.stop_le)).2 ?_
    rw [hlead]
    exact (triviaRun_iff (by omega)).1 h3
  generalize ha : e'.start + ((ofText t).slice e.start f.name.start).length = a at *
  obtain ⟨o, hkey, hname, -, hslice⟩ := exists_isKey_of_slice h10 h.stop_le hslice
    hflat.key.word.bytes_ne_nil (isWord_bytes hflat.key.word)
    (hrun.edge (by omega) (.inr (h.edge hin)))
  -- The braces, the one entry between them and its configuration.
  obtain ⟨hencl, h11, htrail⟩ := Encloses.of_slice h.stop_le hslice
  have hclosing := hencl.closing (neutral_nestCells hin hflat.neutral_body 0)
  have hnest := hencl.inner
  obtain ⟨n, hn⟩ : ∃ n, o + (nestCells inner ((ofText t).slice f.body.start f.body.stop)).length +
    2 = n + 1 := ⟨_, rfl⟩
  rw [hn, Nat.add_sub_cancel] at hclosing hnest
  rw [hinside] at hnest hbody
  have hstop := h.stop_le
  obtain ⟨entry, hentry, hplaced⟩ := exists_entry_of_nestCells (by omega) (by omega) hin hbody hnest
  obtain ⟨value, hkey', hname', hclosing', hvalue⟩ :=
    hplaced.default_key (Text.isIndent_deeper hin) (closers_of_closing? hflat.closing)
  refine ⟨⟨a, a + ((ofText t).bytes f.name).length⟩, ⟨o, n⟩, entry, value,
    { start_le := by dsimp only; omega
      lead := hrun
      before := by simp only [bytes_eq, hlead]
      key := hkey
      name_eq := hname
      closing := hclosing
      entries_eq := hentry
      default_key := hkey'
      default_eq := hname'
      value_closing := hclosing'
      body_eq := by rw [bytes_eq, bytes_eq, hvalue, hinside]
      lt_stop := by dsimp only; omega
      trail := ?_
      behind := by rw [bytes_eq, bytes_eq, ← hn, htrail] }⟩
  refine (triviaRun_iff h.stop_le).2 ?_
  rw [← hn, htrail]
  exact (triviaRun_iff (by rw [size_ofText]; exact hs)).1 h4

end

/-- What an entry `e` of an object of `s` is in the rebuilt object in `s'`: the nested shape of the
flat entry that makes it up, or what it was. -/
def Rebuilt (s s' : Source) (e e' : Span) : Prop :=
  match s.flatIn? e with
  | none => s'.bytes e' = s.bytes e
  | some f => ∃ name b entry value, Wrapped s s' e e' f name b entry value

/-- Where the entry ends in code, a comma behind it is code. -/
theorem Source.IsEntry.code_of_not_dangles {t : Text} {i : Nat} {e : Span} (h : IsEntry t i e)
    (hd : ¬ t.Dangles e.stop) : t.stateAt e.stop = .code := by
  have hexp := stateAt_expects t e.stop
  have hset := h.behind none
  have hcalm := h.calm
  rw [Text.Dangles] at hd
  generalize t.stateAt e.stop = st at *
  cases st with
  | code => rfl
  | line | quoted q | escaped q => exact absurd trivial hd
  | opening => exact absurd hexp hcalm.2
  | block => cases hset
  | closing => exact absurd hexp hcalm.1

/-- The entries of an object that has level entries, none of which dangles, are written anew as
level cells with commas in code behind them. -/
theorem level_anew {t inner : Text} {o c : Nat} (ht : t.WellFormed) (hin : inner.IsIndent)
    (hclose : (ofText t).closing? o = some c) (hb : (ofText t).Balanced (o + 1) c)
    (hends : ∀ e ∈ (ofText t).entries (o + 1) c, ¬ t.Dangles e.stop) :
    ∀ e ∈ (ofText t).entries (o + 1) c,
      Piece 0 ((ofText t).anew inner e) ∧ t.commaKind e.stop = .code := by
  intro e he
  obtain ⟨i, hi⟩ := (laid_entries ht hclose).isEntry e he
  refine ⟨piece_anew hin (Nat.le_of_lt hi.lt) hi.stop_le (piece_of_mem_entries hclose hb e he), ?_⟩
  rw [Text.commaKind, hi.code_of_not_dangles (hends e he)]
  rfl

/-- What trimming leaves of a segment is trimmed. -/
theorem trimmed_of_mem_entries {s : Source} {o c : Nat} (h : o ≤ c) (hs : c ≤ s.size) :
    ∀ e ∈ s.entries o c, Text.Trimmed (s.bytes e) := by
  intro e he
  obtain ⟨x, hx, hxe⟩ := List.mem_filterMap.1 he
  obtain ⟨h1, h2⟩ := (segments_divides h).bounds x hx
  exact trimmed_of_trimBlank? h1 (Nat.le_trans h2 hs) hxe

/-- **The entries of a body of lines** are the entries that were written anew. -/
theorem entries_bodyCells {t inner indent : Text} {s' : Source} {o c o' c' : Nat}
    (ht : t.WellFormed) (hin : inner.IsIndent) (hi : indent.IsIndent)
    (hclose : (ofText t).closing? o = some c) (hb : (ofText t).Balanced (o + 1) c)
    (hends : ∀ e ∈ (ofText t).entries (o + 1) c, ¬ t.Dangles e.stop)
    (h' : o' ≤ c') (hs' : c' ≤ s'.size)
    (hcells : s'.slice o' c' = t.bodyCells inner indent ((ofText t).entries (o + 1) c)) :
    List.Forall₂ (Placed s' (codeCells (Byte.newline :: inner))) (s'.entries o' c')
      (((ofText t).entries (o + 1) c).map ((ofText t).anew inner)) := by
  obtain ⟨-, hlt, hc⟩ := closing?_spec hclose
  refine entries_of_divide h' hs' ?_ (by rw [map_byte_codeCells]; exact hin.madeOf_line)
    (by rw [map_byte_codeCells]; exact hi.madeOf_line) fun cs hcs => ?_
  · rw [hcells]
    exact divide_bodyCells hin hi (level_anew ht hin hclose hb hends)
  · obtain ⟨e, he, rfl⟩ := List.mem_map.1 hcs
    obtain ⟨i, hie⟩ := (laid_entries ht hclose).isEntry e he
    exact trimmed_anew hie
      (trimmed_of_mem_entries hlt (Nat.le_of_lt (lt_size_of_codeByte? hc)) e he)

/-- Entries that were written anew are what they were or have the nested shape. -/
theorem rebuilt_of_placed {t inner : Text} {s' : Source} {es es' : List Span}
    (hin : inner.IsIndent)
    (hes : ∀ e ∈ es, (∃ i, IsEntry t i e) ∧ Piece 0 ((ofText t).slice e.start e.stop))
    (h : List.Forall₂ (Placed s' (codeCells (Byte.newline :: inner))) es'
      (es.map ((ofText t).anew inner))) : List.Forall₂ (Rebuilt (ofText t) s') es es' := by
  induction es generalizing es' with
  | nil =>
    cases h
    exact .nil
  | cons e es ih =>
    cases h with
    | cons hx hrest =>
      refine .cons ?_ (ih (fun e he => hes e (List.mem_cons_of_mem _ he)) hrest)
      obtain ⟨⟨i, hi⟩, hpiece⟩ := hes e List.mem_cons_self
      unfold Rebuilt
      cases hf : (ofText t).flatIn? e with
      | none =>
        dsimp only
        rw [bytes_eq, hx.slice_eq, anew_of_none hf, bytes_eq]
      | some f => exact hx.wrapped hf (Nat.le_of_lt hi.lt) hi.stop_le hpiece hin

/-- **A rebuilt object is complete.** An object with balanced brackets, in which no entry ends
inside a comment that ends with its line or inside a literal, has the same number of entries in the
same order when it is rebuilt and read anew. Its flat entries have the nested shape, each with the
configuration it had, and every other entry is what it was. -/
theorem Source.rebuild_complete (cs : List Char) (b : Braces) (a : Nat) (indent : Text)
    (hi : indent.IsIndent)
    (hclose : (ofText (.ofChars cs)).closing? b.opening = some b.closing)
    (hbalanced : (ofText (.ofChars cs)).Balanced (b.opening + 1) b.closing)
    (hends : ∀ e ∈ (ofText (.ofChars cs)).entries (b.opening + 1) b.closing,
      ¬ Text.Dangles (.ofChars cs) e.stop) :
    ∃ out, (Hit.object a b).nested (ofText (.ofChars cs)) indent = .ok out ∧
      (ofText (Text.replace (.ofChars cs) b.span out)).closing? b.opening =
        some (b.opening + out.length - 1) ∧
      List.Forall₂ (Rebuilt (ofText (.ofChars cs)) (ofText (Text.replace (.ofChars cs) b.span out)))
        ((ofText (.ofChars cs)).entries (b.opening + 1) b.closing)
        ((ofText (Text.replace (.ofChars cs) b.span out)).entries (b.opening + 1)
          (b.opening + out.length - 1)) ∧
      (Hit.object a b).count (ofText (.ofChars cs)) =
        ((ofText (.ofChars cs)).entries (b.opening + 1) b.closing).countP fun e =>
          ((ofText (.ofChars cs)).flatIn? e).isSome := by
  have ht := Text.wellFormed_ofChars cs
  generalize Text.ofChars cs = t at *
  obtain ⟨out, hout, hencl, hnew⟩ := rebuild_encloses ht hi hclose
  have hin := Text.isIndent_deeper hi
  have hstop := hencl.stop_eq
  have hsize := hencl.stop_le
  refine ⟨out, hout, hnew, rebuilt_of_placed hin (fun e he =>
    ⟨(laid_entries ht hclose).isEntry e he, piece_of_mem_entries hclose hbalanced e he⟩) ?_,
    List.length_filterMap_eq_countP⟩
  exact entries_bodyCells ht hin hi hclose hbalanced hends (by omega) (by omega) hencl.inner

/-- An object with a flat entry between comments, a spread, and an entry of another shape. -/
def mixedObject : List Char :=
  "p: \x7b // q\n x: \x7b apiKey: k, h: [1, 2] \x7d /* y */, ...r, z: \x7b u: '\x7d' \x7d\n\x7d".toList

/-- The flat entry between comments is nested, and the other entries are what they were. -/
theorem Source.rebuild_complete_mixed :
    (ofText (.ofChars mixedObject)).closing? 3 = some 68 ∧
    (ofText (.ofChars mixedObject)).Balanced 4 68 ∧
    ∃ out, (Hit.object 0 ⟨3, 68⟩).nested (ofText (.ofChars mixedObject)) (Text.ofString "\t") =
        .ok out ∧
      (ofText (Text.replace (.ofChars mixedObject) ⟨3, 69⟩ out)).closing? 3 =
        some (3 + out.length - 1) ∧
      List.Forall₂ (Rebuilt (ofText (.ofChars mixedObject))
          (ofText (Text.replace (.ofChars mixedObject) ⟨3, 69⟩ out)))
        ((ofText (.ofChars mixedObject)).entries 4 68)
        ((ofText (Text.replace (.ofChars mixedObject) ⟨3, 69⟩ out)).entries 4
          (3 + out.length - 1)) ∧
      (Hit.object 0 ⟨3, 68⟩).count (ofText (.ofChars mixedObject)) = 1 := by
  have hclose : (ofText (.ofChars mixedObject)).closing? 3 = some 68 := by decide +kernel
  have hbalanced : (ofText (.ofChars mixedObject)).Balanced 4 68 :=
    ⟨by decide +kernel, by decide +kernel⟩
  obtain ⟨out, h1, h2, h3, h4⟩ := Source.rebuild_complete mixedObject ⟨3, 68⟩ 0 (Text.ofString "\t")
    (show ∀ b ∈ Text.ofString "\t", b = Byte.space ∨ b = Byte.tab by decide) hclose hbalanced
    (by decide +kernel)
  exact ⟨hclose, hbalanced, out, h1, h2, h3, h4.trans (by decide +kernel)⟩

end ProviderNest
