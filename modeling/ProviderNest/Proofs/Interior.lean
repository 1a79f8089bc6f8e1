import ProviderNest.Proofs.Renewal

/-!
# The inside of a rebuilt object

A rebuilt object has no flat entry (`not_hasFlat_bodyCells`), and a configuration stands in front of
it only if one did (`opens_of_bodyCells`). So its body takes the place of the old one as a `Renewal`
(`renewal_bodyCells`).

What it can still hold is a block with a flat entry further inside: in an entry that is kept, or in
the configuration of an entry that is nested. `Text.Hides` says that an entry of the old object
holds such a block, and `hasBlock_bodyCells_iff` that the blocks in the new body are the ones that
were hidden. This is shown for one entry first (`Text.Ready.exists_hides_iff`).
-/

namespace ProviderNest

open LexState Source

/-- What is asked of an entry `e` of an object that is rebuilt: its brackets are closed in it, it
ends in code, and no word goes on from what is before it. -/
structure Text.Ready (t : Text) (e : Span) : Prop where
  isEntry : ∃ i, IsEntry t i e
  level : Piece 0 ((ofText t).slice e.start e.stop)
  closed : ProviderNest.closers ((ofText t).slice e.start e.stop) 0 = some 0
  comma : t.commaKind e.stop = .code
  edge : (ofText t).inWord (e.start - 1) = false
  trimmed : Text.Trimmed ((ofText t).bytes e)
  behind : ∃ y c r, (ofText t).slice e.stop t.length = y ++ c :: r ∧
    Text.MadeOf Text.blanks (y.map Cell.byte) ∧ (c = .comma ∨ c = ⟨Byte.closeBrace, .code⟩)

/-- A text of some characters has no byte that is in none of them. -/
theorem Text.MadeOf.not_mem {cs : List Char} {u : Text} {b : UInt8} (h : MadeOf cs u)
    (hb : ∀ c ∈ cs, b ∉ String.utf8EncodeChar c) : b ∉ u := by
  obtain ⟨ds, hd, rfl⟩ := h
  intro hm
  obtain ⟨d, hds, hbd⟩ := List.mem_flatMap.1 hm
  exact hb d (hd d hds) hbd

/-- Inert cells leave no brace open and none over. -/
theorem Inert.neutral {cs : List Cell} (h : Inert cs) : Neutral cs :=
  neutral_of_no_braces fun c hc hcode => by
    obtain ⟨b, kind⟩ := c
    obtain rfl : kind = .code := hcode
    exact ⟨fun heq => h.not_open (heq ▸ hc), fun heq => h.not_close (heq ▸ hc)⟩

/-! ## Keys and trivia -/

/-- A run of elements with a property is told from what is behind it and begins without it. -/
theorem append_inj_of_all {α : Type} {p : α → Bool} {u v as bs : List α}
    (hu : ∀ x ∈ u, p x = true) (hv : ∀ x ∈ v, p x = true) (ha : ∀ x ∈ as.head?, p x = false)
    (hb : ∀ x ∈ bs.head?, p x = false) (h : u ++ as = v ++ bs) : u = v ∧ as = bs := by
  induction u generalizing v with
  | nil =>
    cases v with
    | nil => exact ⟨rfl, h⟩
    | cons y v =>
      obtain rfl : as = y :: (v ++ bs) := h
      have := ha y rfl
      rw [hv y List.mem_cons_self] at this
      cases this
  | cons x u ih =>
    cases v with
    | nil =>
      obtain rfl : x :: (u ++ as) = bs := h
      have := hb x rfl
      rw [hu x List.mem_cons_self] at this
      cases this
    | cons y v =>
      obtain ⟨rfl, hrest⟩ := List.cons.inj h
      obtain ⟨rfl, rfl⟩ := ih (fun x hx => hu x (List.mem_cons_of_mem _ hx))
        (fun x hx => hv x (List.mem_cons_of_mem _ hx)) hrest
      exact ⟨rfl, rfl⟩

section
variable {u as bs cs : List Cell} {w w' : Text}

theorem not_isTrivia_of_isWord {b : UInt8} (h : Byte.isWord b = true) :
    Cell.isTrivia ⟨b, .code⟩ = false := by
  rw [← Bool.not_eq_true]
  intro hb
  have := not_inWord_of_isTrivia hb
  rw [Cell.inWord, h] at this
  cases this

/-- The first word behind some trivia is determined. -/
theorem word_inj (hu : ∀ c ∈ u, c.isTrivia = true) (hw : w ≠ [] ∧ ∀ b ∈ w, Byte.isWord b = true)
    (hw' : w' ≠ [] ∧ ∀ b ∈ w', Byte.isWord b = true) (ha : ∀ c ∈ as.head?, c.inWord = false)
    (hb : ∀ c ∈ bs.head?, c.inWord = false) (h : u ++ (codeCells w ++ as) = codeCells w' ++ bs) :
    u = [] ∧ w = w' ∧ as = bs := by
  have hhead {w : Text} {as : List Cell} (hw : w ≠ [] ∧ ∀ b ∈ w, Byte.isWord b = true) :
      ∀ c ∈ (codeCells w ++ as).head?, c.isTrivia = false := by
    obtain ⟨b, v, rfl⟩ := List.exists_cons_of_ne_nil hw.1
    intro c hc
    cases hc
    exact not_isTrivia_of_isWord (hw.2 b List.mem_cons_self)
  have hall {w : Text} (hw : w ≠ [] ∧ ∀ b ∈ w, Byte.isWord b = true) :
      ∀ c ∈ codeCells w, c.inWord = true := by
    intro c hc
    obtain ⟨b, hb, rfl⟩ := List.mem_map.1 hc
    exact hw.2 b hb
  obtain ⟨rfl, hrest⟩ := append_inj_of_all (v := []) hu (List.forall_mem_nil _) (hhead hw)
    (hhead hw') h
  obtain ⟨hword, rfl⟩ := append_inj_of_all (hall hw) (hall hw') ha hb hrest
  have := congrArg (List.map Cell.byte) hword
  rw [map_byte_codeCells, map_byte_codeCells] at this
  exact ⟨rfl, this, rfl⟩

/-- Behind a key comes no part of a word. -/
theorem KeyCells.parts (h : KeyCells w u) : ∃ as, u = codeCells w ++ as ∧
    ∀ r, ∀ c ∈ (as ++ r).head?, c.inWord = false := by
  obtain ⟨v, x, hv, -, rfl⟩ := h
  refine ⟨_, rfl, fun r c hc => ?_⟩
  cases v with
  | nil => cases hc; rfl
  | cons y v =>
    cases hc
    exact not_inWord_of_isTrivia (hv c List.mem_cons_self)

/-- Trivia in front does not matter for the first field. -/
theorem Opens.of_trivia (hu : ∀ c ∈ u, c.isTrivia = true) (h : Opens (u ++ cs)) : Opens cs := by
  obtain ⟨x, m, r, hx, hm, heq, hr⟩ := h
  rcases List.append_eq_append_iff.1 heq with ⟨n, rfl, rfl⟩ | ⟨n, rfl, hn⟩
  · exact ⟨n, m, r, fun c hc => hx c (List.mem_append_right _ hc), hm, rfl, hr⟩
  · cases n with
    | nil => exact ⟨[], m, r, List.forall_mem_nil _, hm, hn.symm, hr⟩
    | cons c n =>
      obtain ⟨v, -, rfl⟩ := hm
      obtain ⟨rfl, -⟩ := List.cons.inj hn
      have := hu ⟨0x61, .code⟩ (List.mem_append_right _ List.mem_cons_self)
      exact absurd this (by decide)

/-- The first field ends before the first comma. -/
theorem Opens.before_comma (h : Opens (cs ++ .comma :: as)) :
    ∃ x m r, (∀ c ∈ x, c.isTrivia = true) ∧ FieldCells m ∧ cs = x ++ (m ++ r) ∧
      r.head? ≠ some ⟨Byte.colon, .code⟩ := by
  obtain ⟨x, m, r, hx, hm, heq, hr⟩ := h
  rw [← List.append_assoc] at heq
  rcases append_cons_cut heq with ⟨n, rfl, rfl⟩ | ⟨n, hn, -⟩
  · refine ⟨x, m, n, hx, hm, List.append_assoc x m n, fun hhead => hr ?_⟩
    cases n with
    | nil => cases hhead
    | cons c n => exact hhead
  · exact absurd (by rw [hn]; simp) ((inert_of_isTrivia hx).append hm.inert).not_comma

/-- A word in front is the name of the first field. -/
theorem Opens.word_eq (h : Opens (codeCells w ++ as))
    (hw : w ≠ [] ∧ ∀ b ∈ w, Byte.isWord b = true) (ha : ∀ c ∈ as.head?, c.inWord = false) :
    w = apiKeyField := by
  obtain ⟨x, m, r, hx, ⟨v, hv, rfl⟩, heq, -⟩ := h
  rw [List.append_assoc, List.append_assoc] at heq
  refine (word_inj hx (by decide) hw (fun c hc => ?_) ha heq.symm).2.1.symm
  cases v with
  | nil => cases hc; rfl
  | cons y v =>
    cases hc
    exact not_inWord_of_isTrivia (hv c List.mem_cons_self)

/-- A word in front is the name of the flat entry. -/
theorem FlatCells.word_ne {z : List Cell} (h : FlatCells z (codeCells w ++ as))
    (hw : w ≠ [] ∧ ∀ b ∈ w, Byte.isWord b = true) (ha : ∀ c ∈ as.head?, c.inWord = false) :
    w ≠ nestedKey := by
  obtain ⟨x, w', k, ds, r, h, heq⟩ := h
  obtain ⟨v, rfl, hv⟩ := h.key.parts
  rw [List.append_assoc] at heq
  obtain ⟨-, rfl, -⟩ := word_inj h.trivia_before ⟨h.ne_nil, h.word⟩ hw (hv _) ha heq.symm
  exact h.name_ne

/-- A flat entry has a brace. -/
theorem not_flatPiece_of_inert (h : Inert cs) : ¬ FlatPiece cs := by
  rintro ⟨z, _, y, rfl, -, -, -, x, w, k, ds, r, -, rfl⟩
  exact h.not_open (by simp)

end

/-! ## The lines of a rebuilt object -/

section
variable {t inner indent : Text} {e : Span} {es : List Span} {f : FlatEntry} {body cs : List Cell}

/-- A line with an entry that is flat. -/
theorem FlatPiece.of_line (hi : indent.IsIndent) (hcs : Text.Trimmed (cs.map Cell.byte))
    (h : FlatPiece (codeCells (Byte.newline :: indent) ++ cs)) :
    FlatCells (codeCells (Byte.newline :: indent)) cs := by
  obtain ⟨z, ds, y, heq, hz, hy, hds, hflat⟩ := h
  obtain ⟨rfl, rfl, -⟩ := trimmed_inj (y := []) (by rw [map_byte_codeCells]; exact hi.madeOf_line)
    hz .nil hy hcs hds (by rwa [List.append_nil])
  exact hflat

/-- A nested entry has no configuration in front. -/
theorem not_opens_nestCells (hin : inner.IsIndent) : ¬ Opens (nestCells inner body) := by
  intro h
  have h := h.of_trivia (isTrivia_line (Text.isIndent_deeper hin))
  rw [show codeCells (nestedKey ++ Text.ofString ": ") =
    codeCells nestedKey ++ codeCells (Text.ofString ": ") by decide, List.append_assoc,
    List.append_assoc] at h
  exact absurd (h.word_eq (by decide) fun c hc => by cases hc; rfl) (by decide)

/-- The one entry of a nested entry is not flat. -/
theorem not_hasFlat_nestCells (hin : inner.IsIndent) (hb : Piece 0 body)
    (hbody : ∃ ds, body = ⟨Byte.openBrace, .code⟩ :: (ds ++ [⟨Byte.closeBrace, .code⟩])) :
    ¬ HasFlat (nestCells inner body) := by
  rintro ⟨p, hp, hflat⟩
  rw [divide_nestCells hin hb] at hp
  rcases List.mem_append.1 hp with hp | hp
  · obtain ⟨_, hdefault, rfl⟩ := List.mem_map.1 hp
    obtain rfl := List.mem_singleton.1 hdefault
    have hcells := hflat.of_line (Text.isIndent_deeper hin) (trimmed_default hbody)
    rw [show codeCells (nestedKey ++ Text.ofString ": ") =
      codeCells nestedKey ++ codeCells (Text.ofString ": ") by decide, List.append_assoc] at hcells
    exact hcells.word_ne (by decide) (fun c hc => by cases hc; rfl) rfl
  · obtain rfl := List.mem_singleton.1 hp
    exact not_flatPiece_of_inert (inert_line hin) hflat

/-- The depth is level behind the body of a rebuilt object. -/
theorem upright_bodyCells (hin : inner.IsIndent) (hi : indent.IsIndent)
    (hes : ∀ e ∈ es, Piece 0 ((ofText t).anew inner e) ∧ t.commaKind e.stop = .code) :
    Upright 0 (t.bodyCells inner indent es) ∧ depthOf (t.bodyCells inner indent es) = 0 := by
  induction es with
  | nil => exact ⟨(inert_line hi).upright (Int.le_refl 0), (inert_line hi).depthOf⟩
  | cons e es ih =>
    obtain ⟨hpiece, hkind⟩ := hes e List.mem_cons_self
    obtain ⟨hup, hz⟩ := ih fun e he => hes e (List.mem_cons_of_mem _ he)
    have hline := (inert_line hin).piece.append hpiece
    have hcomma : Cell.comma.depth = 0 := rfl
    rw [Text.bodyCells, hkind, ← List.append_assoc]
    generalize codeCells (Byte.newline :: inner) ++ (ofText t).anew inner e = as at hline
    have hclose : depthOf as = 0 := by
      have := hline.closes
      omega
    rw [upright_append, depthOf_append, hclose, Int.add_zero, depthOf_cons, hcomma, hz]
    refine ⟨⟨hline.upright, Int.le_refl 0, ?_⟩, rfl⟩
    rwa [hcomma, Int.add_zero]

namespace Text.Ready

theorem lt (h : t.Ready e) : e.start < e.stop := h.isEntry.elim fun _ h => h.lt

theorem stop_le (h : t.Ready e) : e.stop ≤ t.length := h.isEntry.elim fun _ h => h.stop_le

/-- An entry that is written anew leaves no brace over. -/
theorem closers_anew (h : t.Ready e) (hin : inner.IsIndent) :
    ProviderNest.closers ((ofText t).anew inner e) 0 = some 0 := by
  have hle := Nat.le_of_lt h.lt
  rw [← weave_anew hle hin, closers_weave (follow_flatIn? hle inner), h.closed]
  intro c hc
  obtain ⟨f, hf, rfl⟩ := List.mem_map.1 hc
  obtain ⟨⟨colon, hflat⟩, -⟩ := flatIn?_eq_some hle (Option.mem_toList.1 hf)
  exact balanced_flat hflat hin

theorem level_anew (h : t.Ready e) (hin : inner.IsIndent) :
    Piece 0 ((ofText t).anew inner e) ∧ t.commaKind e.stop = .code :=
  ⟨piece_anew hin (Nat.le_of_lt h.lt) h.stop_le h.level, h.comma⟩

/-- No entry is flat when it is written anew. -/
theorem not_flatCells (h : t.Ready e) (hin : inner.IsIndent) {z : List Cell} :
    ¬ FlatCells z ((ofText t).anew inner e) := by
  intro hflat
  have hle := Nat.le_of_lt h.lt
  have hsize := h.stop_le
  cases hf : (ofText t).flatIn? e with
  | none =>
    rw [anew_of_none hf] at hflat
    obtain ⟨f, hsome⟩ := isSome_flatIn? (x := ⟨e.start, e.start⟩) (Nat.le_refl e.start) hle
      (by rwa [size_ofText]) (.inr h.edge)
      (hflat.behind fun c hc => by rw [slice_self] at hc; cases hc)
    rw [hf] at hsome
    cases hsome
  | some f =>
    -- The braces of the entry are those of the nested shape.
    obtain ⟨u, w, k, ds, r, hshape, heq⟩ := hflat
    obtain ⟨hname, hbody, -⟩ := piece_body hle hsize hf h.level
    obtain ⟨⟨colon, hflat⟩, -⟩ := flatIn?_eq_some hle hf
    have hneutral := hflat.neutral_body
    have hcolon : Inert (codeCells (Text.ofString ": ")) := by decide
    rw [anew_of_some hf, ← List.append_assoc, ← List.append_assoc] at heq
    obtain ⟨-, hrest⟩ := append_cons_inj (hname.append hcolon).not_open
      ((inert_of_isTrivia hshape.trivia_before).append (hshape.key.inert hshape.word)).not_open heq
    obtain ⟨rfl, -⟩ := closed_inj (neutral_nestCells hin hneutral 0) hshape.closed hrest
    exact not_opens_nestCells hin hshape.opens

end Text.Ready

/-- **No entry of a rebuilt object is flat.** -/
theorem not_hasFlat_bodyCells (hin : inner.IsIndent) (hi : indent.IsIndent)
    (hes : ∀ e ∈ es, t.Ready e) : ¬ HasFlat (t.bodyCells inner indent es) := by
  rintro ⟨p, hp, hflat⟩
  rw [divide_bodyCells hin hi fun e he => (hes e he).level_anew hin] at hp
  rcases List.mem_append.1 hp with hp | hp
  · obtain ⟨_, hanew, rfl⟩ := List.mem_map.1 hp
    obtain ⟨e, he, rfl⟩ := List.mem_map.1 hanew
    obtain ⟨i, hie⟩ := (hes e he).isEntry
    exact (hes e he).not_flatCells hin (hflat.of_line hin (trimmed_anew hie (hes e he).trimmed))
  · obtain rfl := List.mem_singleton.1 hp
    exact not_flatPiece_of_inert (inert_line hi) hflat

/-- No colon comes behind an entry. -/
theorem Text.Ready.head?_behind (h : t.Ready e) (j : Nat) :
    ((ofText t).slice e.stop j).head? ≠ some ⟨Byte.colon, .code⟩ := by
  intro hhead
  obtain ⟨r, hr⟩ := List.head?_eq_some_iff.1 hhead
  obtain ⟨hlt, hcell⟩ : e.stop < j ∧ (ofText t).cells[e.stop]? = some ⟨Byte.colon, .code⟩ := by
    have hlt : e.stop < j := by
      refine Nat.lt_of_not_le fun hle => ?_
      rw [slice, Nat.sub_eq_zero_of_le hle, List.take_zero] at hr
      cases hr
    refine ⟨hlt, ?_⟩
    have := getElem?_slice (ofText t) (i := e.stop) (j := j) (k := 0) hlt
    rw [hr] at this
    exact this.symm
  obtain ⟨y, c, r, heq, hy, hc⟩ := h.behind
  have hsize : e.stop < t.length := by
    have := (Array.getElem?_eq_some_iff.1 hcell).1
    rwa [← size, size_ofText] at this
  rw [slice_eq_cons _ hsize hcell] at heq
  cases y with
  | nil =>
    obtain ⟨rfl, -⟩ := List.cons.inj heq
    rcases hc with hc | hc <;> exact absurd hc (by decide)
  | cons x y =>
    obtain ⟨rfl, -⟩ := List.cons.inj heq
    exact hy.not_mem (by decide) List.mem_cons_self

section
variable {o c : Nat} {as : List Cell}

/-- A field in front of an entry that is kept is in front of the object. -/
theorem Text.Ready.opens_of_kept (h : t.Ready e) (ho : o + 1 ≤ e.start) (hc : e.stop ≤ c)
    (hlead : (ofText t).TriviaRun (o + 1) e.start)
    (hopens : Opens ((ofText t).slice e.start e.stop ++ .comma :: as)) :
    Opens ((ofText t).slice (o + 1) c) := by
  have hlt := h.lt
  have hsize := h.stop_le
  obtain ⟨x, m, r, hx, hm, heq, hr⟩ := hopens.before_comma
  refine ⟨(ofText t).slice (o + 1) e.start ++ x, m, r ++ (ofText t).slice e.stop c,
    List.forall_mem_append.2 ⟨(triviaRun_iff (by rw [size_ofText]; omega)).1 hlead, hx⟩, hm, ?_,
    fun hhead => ?_⟩
  · rw [← slice_append _ ho (show e.start ≤ c by omega), ← slice_append _ (Nat.le_of_lt hlt) hc,
      heq]
    simp
  · cases r with
    | nil => exact h.head?_behind c hhead
    | cons d r => exact hr hhead

/-- A field in front of an entry that is nested is its name. -/
theorem Text.Ready.opens_of_nested (h : t.Ready e) (hclose : (ofText t).closing? o = some c)
    (ho : o + 1 ≤ e.start) (hc : e.stop ≤ c) (hlead : (ofText t).TriviaRun (o + 1) e.start)
    (hf : (ofText t).flatIn? e = some f) (hopens : Opens ((ofText t).anew inner e ++ as)) :
    Opens ((ofText t).slice (o + 1) c) := by
  obtain ⟨hbrace, -, hcb⟩ := closing?_spec hclose
  obtain ⟨⟨colon, hflat⟩, h1, h2, h3, -⟩ := flatIn?_eq_some (Nat.le_of_lt h.lt) hf
  obtain ⟨h4, h5, h6, h7, h8⟩ := hflat.order
  rw [anew_of_some hf, ← slice_append _ h1 (Nat.le_of_lt h4), hflat.key.word.slice_eq,
    List.append_assoc, List.append_assoc, List.append_assoc] at hopens
  have hname := (hopens.of_trivia ((triviaRun_iff (by omega)).1 h3)).word_eq
    ⟨hflat.key.word.bytes_ne_nil, isWord_bytes hflat.key.word⟩ fun d hd => by cases hd; rfl
  have hfirst : FirstField (ofText t) o ⟨f.name, f.body.start⟩ colon :=
    { brace := hbrace
      le := by dsimp only; omega
      trivia := fun k hk hk' => by
        rcases Nat.lt_or_ge k e.start with hlt | hge
        · exact hlead k hk hlt
        · exact h3 k hge hk'
      isKey := hflat.key
      name_eq := hname }
  exact hfirst.opens (by omega) (Nat.le_of_lt (lt_size_of_codeByte? hcb))

/-- **A rebuilt object has a configuration in front only if it had one.** -/
theorem opens_of_bodyCells (hclose : (ofText t).closing? o = some c) (hin : inner.IsIndent)
    (hi : indent.IsIndent) (hes : ∀ e ∈ es, t.Ready e)
    (hfront : ∀ e ∈ es.head?, o + 1 ≤ e.start ∧ e.stop ≤ c ∧ (ofText t).TriviaRun (o + 1) e.start)
    (h : Opens (t.bodyCells inner indent es)) : Opens ((ofText t).slice (o + 1) c) := by
  cases es with
  | nil =>
    rw [Text.bodyCells, ← List.append_nil (codeCells _)] at h
    obtain ⟨x, _, r, -, ⟨v, -, rfl⟩, heq, -⟩ := h.of_trivia (isTrivia_line hi)
    have := congrArg List.length heq
    simp only [List.length_append, List.length_map, List.length_nil] at this
    have : 0 < apiKeyField.length := by decide
    omega
  | cons e es =>
    have hready := hes e List.mem_cons_self
    obtain ⟨ho, hc, hlead⟩ := hfront e rfl
    have hentry := h.of_trivia (isTrivia_line hin)
    cases hf : (ofText t).flatIn? e with
    | none =>
      rw [anew_of_none hf, hready.comma] at hentry
      exact hready.opens_of_kept ho hc hlead hentry
    | some f => exact hready.opens_of_nested hclose ho hc hlead hf hentry

end

/-- **A rebuilt body takes the place of the old one.** -/
theorem renewal_bodyCells {o c : Nat} (ht : t.WellFormed) (hi : indent.IsIndent)
    (hclose : (ofText t).closing? o = some c) (hb : (ofText t).Balanced (o + 1) c)
    (hes : ∀ e ∈ (ofText t).entries (o + 1) c, t.Ready e)
    (hfront : ∀ e ∈ ((ofText t).entries (o + 1) c).head?,
      o + 1 ≤ e.start ∧ e.stop ≤ c ∧ (ofText t).TriviaRun (o + 1) e.start) :
    Renewal ((ofText t).slice (o + 1) c)
      (t.bodyCells (indent ++ .ofString "  ") indent ((ofText t).entries (o + 1) c)) := by
  obtain ⟨-, hlt, hcb⟩ := closing?_spec hclose
  have hin := Text.isIndent_deeper hi
  obtain ⟨hup, hz⟩ := hb.cells hlt (Nat.le_of_lt (lt_size_of_codeByte? hcb))
  obtain ⟨hup', hz'⟩ := upright_bodyCells hin hi fun e he => (hes e he).level_anew hin
  exact
    { old_closed := closers_of_closing? hclose
      new_closed := closers_bodyCells (b := ⟨o, c⟩) ht hi hclose
      old_level := .braces hup hz
      new_level := .braces hup' hz'
      opens := opens_of_bodyCells hclose hin hi hes hfront
      not_hasFlat := not_hasFlat_bodyCells hin hi hes }

end

/-! ## Blocks in a rebuilt object -/

/-- In the entry `e`, at position `k`, a block with the cells `ds` between its braces begins. The
entry is not a flat entry with this key. -/
structure Text.Hides (t : Text) (e : Span) (k : Nat) (ds : List Cell) : Prop where
  start_le : e.start ≤ k
  lt : k < e.stop
  edge : k = 0 ∨ (ofText t).inWord (k - 1) = false
  block : BlockCells ((ofText t).slice k t.length) ds
  not_name : ∀ f, (ofText t).flatIn? e = some f → f.name.start ≠ k

section
variable {t inner indent : Text} {e : Span} {es : List Span} {f : FlatEntry} {cs ds : List Cell}

theorem initial_of_isTrivia (h : ∀ c ∈ cs, c.isTrivia = true) : Cell.initial ∉ cs :=
  fun hc => absurd (h _ hc) (by decide)

theorem initial_front (hin : inner.IsIndent) : Cell.initial ∉ codeCells (front inner) := by
  have hindent := hin.not_mem (b := 0x70) (by decide)
  simp only [mem_codeCells, front, List.mem_append, not_or]
  exact ⟨⟨⟨⟨by decide, hindent⟩, by decide⟩, by decide⟩, by decide⟩

theorem initial_back (hin : inner.IsIndent) : Cell.initial ∉ codeCells (back inner) := by
  have hindent := hin.not_mem (b := 0x70) (by decide)
  simp only [mem_codeCells, back, List.mem_append, not_or]
  exact ⟨⟨by decide, hindent⟩, by decide⟩

/-- The parts of a flat entry that is written anew. -/
theorem anew_parts (he : e.start ≤ e.stop) (hf : (ofText t).flatIn? e = some f) :
    (ofText t).anew inner e = (ofText t).slice e.start f.name.start ++
      (codeCells ((ofText t).bytes f.name) ++ (codeCells (front inner) ++
        ((ofText t).slice f.body.start f.body.stop ++
          (codeCells (back inner) ++ (ofText t).slice f.body.stop e.stop)))) := by
  obtain ⟨⟨colon, hflat⟩, h1, -⟩ := flatIn?_eq_some he hf
  have h2 := hflat.key.word.lt
  rw [← hflat.key.word.slice_eq, ← List.append_assoc, slice_append _ h1 (Nat.le_of_lt h2),
    Source.anew, hf]

namespace Text.Ready

/-- A block that begins in an entry ends in it. -/
theorem block_inside (h : t.Ready e) {k : Nat} (hk : e.start ≤ k) (hk' : k ≤ e.stop)
    (hb : BlockCells ((ofText t).slice k t.length) ds) :
    BlockCells ((ofText t).slice k e.stop) ds := by
  obtain ⟨y, c, r, hbehind, hy, hc⟩ := h.behind
  have hclosed := h.closed
  rw [← slice_append _ hk' h.stop_le, hbehind, ← List.append_assoc] at hb
  rw [← slice_append _ hk hk'] at hclosed
  have hclosers : (ProviderNest.closers ((ofText t).slice k e.stop ++ y) 0).isSome = true := by
    rw [closers_append, (inert_of_blanks hy).neutral 0]
    exact isSome_closers_of_append (by rw [hclosed]; rfl)
  exact (hb.within hc hclosers).of_append_inert (inert_of_blanks hy)

/-- The blocks in an entry that is kept. -/
theorem hides_kept_iff (h : t.Ready e) (hflat : (ofText t).flatIn? e = none) :
    (∃ k, t.Hides e k ds) ↔ HasBlock ((ofText t).slice e.start e.stop) ds := by
  have hsize := h.stop_le
  rw [hasBlock_slice_iff (Nat.le_of_lt h.lt) (by rwa [size_ofText]) (.inr h.edge)]
  constructor
  · rintro ⟨k, hk⟩
    exact ⟨k, hk.start_le, hk.lt, hk.edge, h.block_inside hk.start_le (Nat.le_of_lt hk.lt) hk.block⟩
  · rintro ⟨k, h1, h2, hedge, hb⟩
    refine ⟨k, h1, h2, hedge, ?_, fun f hf => ?_⟩
    · rw [← slice_append _ (Nat.le_of_lt h2) hsize]
      exact hb.append _
    · rw [hflat] at hf
      cases hf

/-- The blocks in an entry that is nested lie between the braces of its body. -/
theorem hides_nested_iff (h : t.Ready e) (hflat : (ofText t).flatIn? e = some f) :
    (∃ k, t.Hides e k ds) ↔ HasBlock ((ofText t).slice (f.body.start + 1) f.body.stop) ds := by
  have hsize := h.stop_le
  have hs : e.stop ≤ (ofText t).size := by rwa [size_ofText]
  obtain ⟨⟨colon, hisFlat⟩, h1, h2, h3, h4⟩ := flatIn?_eq_some (Nat.le_of_lt h.lt) hflat
  obtain ⟨h5, h6, h7, h8, h9⟩ := hisFlat.order
  have hbrace := inWord_of_codeByte? (closing?_spec hisFlat.closing).1 (by decide)
  rw [hasBlock_slice_iff (by omega) (by omega) (.inr hbrace)]
  constructor
  · rintro ⟨k, hk⟩
    have hstart := hk.start_le
    have hlt := hk.lt
    have hb := h.block_inside hstart (Nat.le_of_lt hlt) hk.block
    -- The block begins with part of a word, so it begins behind the brace.
    have hword : (ofText t).inWord k = true := inWord_eq (hb.getElem? hs)
    have hbehind := (hisFlat.key.start_or_behind (h3.le_of_inWord hstart hword) hword
      hk.edge).resolve_left (Ne.symm (hk.not_name f hflat))
    have hne : f.body.start ≠ k := fun heq => by
      rw [← heq, hbrace] at hword
      cases hword
    have hbefore : k < f.body.stop := Nat.lt_of_not_le fun hge =>
      Nat.not_le_of_lt hlt (h4.le_of_inWord hge hword)
    rw [← slice_append _ (Nat.le_of_lt hbefore) h2] at hb
    exact ⟨k, Nat.lt_of_le_of_ne hbehind hne, hbefore, hk.edge,
      hb.of_append_inert (inert_of_isTrivia ((triviaRun_iff hs).1 h4))⟩
  · rintro ⟨k, hk, hk', hedge, hb⟩
    refine ⟨k, by omega, by omega, hedge, ?_, fun g hg heq => ?_⟩
    · rw [← slice_append _ (Nat.le_of_lt hk') (by omega)]
      exact hb.append _
    · rw [hflat] at hg
      cases hg
      omega

/-- The blocks with a flat entry in what a flat entry becomes are those in its body. -/
theorem hasBlock_anew_iff (h : t.Ready e) (hin : inner.IsIndent)
    (hflat : (ofText t).flatIn? e = some f) (hf : HasFlat ds) :
    HasBlock ((ofText t).anew inner e) ds ↔
      HasBlock ((ofText t).slice (f.body.start + 1) f.body.stop) ds := by
  have hsize := h.stop_le
  have hle := Nat.le_of_lt h.lt
  obtain ⟨⟨colon, hisFlat⟩, h1, h2, h3, h4⟩ := flatIn?_eq_some hle hflat
  obtain ⟨h5, h6, h7, h8, h9⟩ := hisFlat.order
  have hneutral := hisFlat.neutral_body
  have hword := isWord_bytes hisFlat.key.word
  have hbody := slice_eq_cons (ofText t) (show f.body.start < f.body.stop by omega)
    (codeByte?_eq_some.1 (closing?_spec hisFlat.closing).1)
  rw [anew_parts hle hflat]
  constructor
  · intro hb
    rcases (hb.of_append (initial_of_isTrivia ((triviaRun_iff (by omega)).1 h3))).of_word hword with
      hname | hb
    · -- A block at the name has the nested shape between its braces.
      obtain ⟨-, hpiece, -⟩ := piece_body hle hsize hflat h.level
      have hcolon : Inert (codeCells (Text.ofString ": ")) := by decide
      rw [cells_around, ← List.append_assoc] at hname
      obtain rfl := hname.eq_of_inert ((inert_of_isWord hword).append hcolon)
        (neutral_nestCells hin hneutral 0) rfl
      exact absurd hf (not_hasFlat_nestCells hin hpiece ⟨_, hisFlat.encloses.slice_eq⟩)
    have hb := hb.of_append (initial_front hin)
    rw [hbody] at hb
    have hclosers := hneutral 0
    rw [hbody] at hclosers
    obtain ⟨us, hus⟩ : ∃ us, codeCells (back inner) ++ (ofText t).slice f.body.stop e.stop =
        .comma :: us := ⟨_, rfl⟩
    rw [hus] at hb
    refine ((hb.of_cons (by decide)).cut (.inl rfl)
      (isSome_closers_of_cons (by rw [hclosers]; rfl))).resolve_right fun hb => ?_
    -- What is put in behind the body has no block.
    have hinitial := List.mem_cons_of_mem Cell.comma hb.mem_initial
    rw [← hus, List.mem_append] at hinitial
    exact hinitial.elim (initial_back hin)
      (initial_of_isTrivia ((triviaRun_iff (by rwa [size_ofText])).1 h4))
  · intro hb
    have hd : Detached ((ofText t).slice e.start f.name.start ++
        (codeCells ((ofText t).bytes f.name) ++ codeCells (front inner)) ++
          [⟨Byte.openBrace, .code⟩]) :=
      detached_concat rfl
    have := (hb.append (codeCells (back inner) ++ (ofText t).slice f.body.stop e.stop)).behind hd
    rw [hbody]
    simpa using this

/-- **The blocks in an entry that is written anew** are those that it hides. -/
theorem exists_hides_iff (h : t.Ready e) (hin : inner.IsIndent) (hf : HasFlat ds) :
    (∃ k, t.Hides e k ds) ↔ HasBlock ((ofText t).anew inner e) ds := by
  cases hflat : (ofText t).flatIn? e with
  | none => rw [h.hides_kept_iff hflat, anew_of_none hflat]
  | some f => rw [h.hides_nested_iff hflat, h.hasBlock_anew_iff hin hflat hf]

end Text.Ready

/-- **The blocks in a rebuilt object** that have a flat entry are those that its entries hide. -/
theorem hasBlock_bodyCells_iff (hin : inner.IsIndent) (hi : indent.IsIndent)
    (hes : ∀ e ∈ es, t.Ready e) (hf : HasFlat ds) :
    HasBlock (t.bodyCells inner indent es) ds ↔ ∃ e ∈ es, ∃ k, t.Hides e k ds := by
  induction es with
  | nil =>
    exact iff_of_false (fun hb => initial_of_isTrivia (isTrivia_line hi) hb.mem_initial) (by simp)
  | cons e es ih =>
    have hready := hes e List.mem_cons_self
    have ih := ih fun e he => hes e (List.mem_cons_of_mem _ he)
    have hcells : t.bodyCells inner indent (e :: es) = codeCells (Byte.newline :: inner) ++
        ((ofText t).anew inner e ++ .comma :: t.bodyCells inner indent es) := by
      rw [Text.bodyCells, hready.comma]
    have hline := isTrivia_line hin
    rw [hcells, List.exists_mem_cons_iff, hready.exists_hides_iff hin hf, ← ih]
    constructor
    · intro hb
      exact (hb.of_append (initial_of_isTrivia hline)).cut (.inl rfl)
        (by rw [hready.closers_anew hin]; rfl)
    · rintro (hb | hb)
      · exact (hb.append _).behind (detached_of_isTrivia hline)
      · have hd : Detached (codeCells (Byte.newline :: inner) ++ (ofText t).anew inner e ++
          [.comma]) := detached_concat rfl
        simpa using hb.behind hd

end

end ProviderNest
