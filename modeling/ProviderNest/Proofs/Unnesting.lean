import ProviderNest.Proofs.Rebuilding

/-!
# Reading the nested shape back

The nested shape of an entry, taken as a text of its own, is read back by `unnest?`: it is one
key with braces that reach up to the last byte, the first key between them is `default`, and the
value of that key is the configuration, byte for byte (`IsNested`). A configuration begins and ends
with a brace of code, so it is read alike wherever it stands: in a text, in the nested shape and on
its own (`Entry.Enclosed.cells_nested`). So every flat entry of a text comes back from its nested
shape (`unnest?_nested`), which is not flat itself, since the key `default` comes first in it.
-/

namespace ProviderNest

open LexState Source

/-- The name and the configuration of an entry that is written in the nested shape. -/
def Source.unnest? (s : Source) : Option Entry := do
  let key ← s.key? 0
  let field ← s.key? (s.skipTrivia (key.value + 1))
  guard (s.spells field.name nestedKey)
  let close ← s.closing? field.value
  return ⟨s.bytes key.name, s.bytes ⟨field.value, close + 1⟩⟩

/-- The text of a source is the nested shape of the entry `e`: the key `key` at its start is the
name of the entry, and the braces behind it end with the text; `field` is the first key between
them, and its value ends at position `close`. -/
structure Source.IsNested (s : Source) (e : Entry) (key field : Key) (close : Nat) : Prop where
  key_eq : s.key? 0 = some key
  name_eq : s.bytes key.name = e.name
  closing : s.closing? key.value = some (s.size - 1)
  field_eq : s.key? (s.skipTrivia (key.value + 1)) = some field
  field_name : s.bytes field.name = nestedKey
  field_closing : s.closing? field.value = some close
  body_eq : s.bytes ⟨field.value, close + 1⟩ = e.body
  comma : s.codeByte? (close + 1) = some Byte.comma
  spaces : ∀ k, close + 1 < k → k < s.size - 1 →
    ∃ b, s.codeByte? k = some b ∧ Byte.isSpace b = true

namespace Source.IsNested

variable {s : Source} {e : Entry} {key field : Key} {close : Nat}

/-- The first key between the braces is spelled `default` and not otherwise. -/
theorem spells_field (h : s.IsNested e key field close) (w : Text) :
    s.spells field.name w = decide (nestedKey = w) := by
  obtain ⟨-, colon, hfield⟩ := key?_eq_some.1 h.field_eq
  rw [Bool.eq_iff_iff, decide_eq_true_iff,
    hfield.word.spells_iff, h.field_name]

/-- A text in the nested shape is not a flat entry. -/
theorem flatEntry?_eq_none (h : s.IsNested e key field close) : s.flatEntry? 0 = none := by
  cases hfound : s.flatEntry? 0 with
  | none => rfl
  | some f =>
    obtain ⟨hstart, colon, hflat⟩ := flatEntry?_eq_some.1 hfound
    have hsame : key = ⟨f.name, f.body.start⟩ :=
      Option.some.inj (h.key_eq.symm.trans (key?_eq_some.2 ⟨hstart, colon, hflat.key⟩))
    have hnext := h.field_eq
    have hleads := hflat.leads
    rw [hsame] at hnext
    rw [opensConfiguration, isKey, hnext, Option.any_some, h.spells_field] at hleads
    exact absurd hleads (by decide)

/-- A text in the nested shape gives its entry. -/
theorem unnest?_eq (h : s.IsNested e key field close) : s.unnest? = some e := by
  have hdefault : s.spells field.name nestedKey = true := by
    rw [h.spells_field]
    decide
  simp only [unnest?, h.key_eq, h.field_eq, hdefault, h.field_closing, h.name_eq, h.body_eq,
    Option.bind_eq_bind, Option.bind_some, guard_eq, if_true, Option.pure_def]

end Source.IsNested

/-! ## Between the braces of the nested shape -/

section
variable {s : Source} {indent : Text} {ds : List Cell} {i j k o : Nat}

/-- A line break and an indentation are white space in code. -/
theorem isSpace_of_line (hi : indent.IsIndent) (hj : j ≤ s.size)
    (hs : s.slice i j = codeCells (Byte.newline :: indent)) (h1 : i ≤ k) (h2 : k < j) :
    ∃ b, s.codeByte? k = some b ∧ Byte.isSpace b = true := by
  obtain ⟨c, hc⟩ := s.exists_cell (i := k) (Nat.lt_of_lt_of_le h2 hj)
  have hcell := getElem?_slice s (i := i) (j := j) (k := k - i) (by omega)
  rw [Nat.add_sub_cancel' h1, hc, hs] at hcell
  obtain ⟨b, hb, rfl⟩ := List.mem_map.1 (List.mem_of_getElem? hcell)
  exact ⟨b, codeByte?_eq_some.2 hc, hi.isSpace_line b hb⟩

/-- Between the braces of the nested shape the key `default` comes first. Its value is the
configuration, and behind that there is only a comma and white space. -/
theorem Encloses.exists_field
    (h : Encloses s o j (nestCells indent (⟨Byte.openBrace, .code⟩ ::
      (ds ++ [⟨Byte.closeBrace, .code⟩])))) (hi : indent.IsIndent) :
    ∃ field close, s.key? (s.skipTrivia (o + 1)) = some field ∧ s.bytes field.name = nestedKey ∧
      Encloses s field.value (close + 1) ds ∧ s.codeByte? (close + 1) = some Byte.comma ∧
      ∀ k, close + 1 < k → k < j - 1 → ∃ b, s.codeByte? k = some b ∧ Byte.isSpace b = true := by
  have hstop := h.stop_eq
  have hsize := h.stop_le
  have hslice := h.inner
  have hn : j - 1 ≤ s.size := Nat.le_trans (Nat.sub_le _ _) hsize
  -- The line in front of the key.
  obtain ⟨h1, hline, hslice⟩ := slice_split (show o + 1 ≤ j - 1 by omega) hn hslice
  have hrun := (triviaRun_iff (Nat.le_trans h1 hn)).2
    (hline ▸ isTrivia_line (Text.isIndent_deeper hi))
  rw [List.length_map, List.length_cons] at h1 hrun hslice
  generalize hp : o + 1 + ((indent ++ Text.ofString "  ").length + 1) = p at *
  have hedge : s.inWord (p - 1) = false :=
    inWord_of_isTrivia (hrun (p - 1) (by omega) (by omega))
  -- The key, the configuration and the comma.
  simp only [List.append_assoc, List.cons_append, List.nil_append] at hslice
  obtain ⟨value, hkey, hname, -, hslice⟩ := exists_isKey_of_slice h1 hn hslice (by decide)
    (by decide) (.inr hedge)
  obtain ⟨hencl, -, hslice⟩ := Encloses.of_slice hn hslice
  obtain ⟨-, hcomma, hslice⟩ := slice_uncons hn hslice
  have hskip : s.skipTrivia (o + 1) = p :=
    skipTrivia_eq (by omega) hrun hkey.word.isTrivia_start
  refine ⟨_, _, key?_eq_some.2 ⟨hskip.symm, _, hkey⟩, hname, hencl, codeByte?_eq_some.2 hcomma,
    fun k h2 h3 => isSpace_of_line hi hn hslice h2 h3⟩

end

/-! ## Entries that are read back -/

/-- The name of an entry is a word, and its configuration is an object. -/
structure Entry.Enclosed (e : Entry) : Prop where
  ne_nil : e.name ≠ []
  word : ∀ b ∈ e.name, Byte.isWord b = true
  closing : (ofText e.body).closing? 0 = some (e.body.length - 1)

/-- A flat entry that is cut out of a text. -/
theorem Source.IsFlat.enclosed {t : Text} {f : FlatEntry} {colon : Nat}
    (h : (ofText t).IsFlat f colon) :
    Entry.Enclosed ⟨(ofText t).bytes f.name, (ofText t).bytes f.body⟩ where
  ne_nil := h.key.word.bytes_ne_nil
  word := isWord_bytes h.key.word
  closing := h.body_alone.2

namespace Entry.Enclosed

variable {e : Entry} {indent : Text}

/-- The configuration as braces with what is between them. -/
theorem exists_cells_body (h : e.Enclosed) : ∃ ds, closers ds 0 = some 0 ∧
    (ofText e.body).cells.toList =
      ⟨Byte.openBrace, .code⟩ :: (ds ++ [⟨Byte.closeBrace, .code⟩]) := by
  obtain ⟨-, hlt, -⟩ := closing?_spec h.closing
  refine ⟨_, closers_of_closing? h.closing, ?_⟩
  rw [← (Encloses.of_closing h.closing).slice_eq, Nat.sub_add_cancel (by omega), ← size_ofText,
    slice_zero_size]

/-- Behind the configuration there is code, whatever comes next. -/
theorem read_body (h : e.Enclosed) (next : Option UInt8) :
    code.cells e.body next = (ofText e.body).cells.toList ∧ code.after e.body next = code := by
  obtain ⟨-, hlt, hclose⟩ := closing?_spec h.closing
  obtain ⟨hsolid, hstate⟩ := solid_of_codeByte? (t := e.body) (i := e.body.length) hclose
    (by omega) (by decide)
  rw [Text.stateAt, List.drop_length, List.head?_nil] at hstate
  rw [List.take_length] at hsolid hstate
  obtain ⟨hafter, hcells⟩ := after_cells_alike (m := next) (n := none) (.inr (.inr hsolid)) code
  rw [toList_ofText]
  exact ⟨hcells, hafter.trans hstate⟩

/-- **The nested shape by its cells.** Those of the configuration are the ones it has on its own. -/
theorem cells_nested (h : e.Enclosed) (hi : indent.IsIndent) :
    (ofText (e.nested indent)).cells.toList = codeCells (e.name ++ .ofString ": ") ++
      ⟨Byte.openBrace, .code⟩ :: (nestCells indent (ofText e.body).cells.toList ++
        [⟨Byte.closeBrace, .code⟩]) := by
  have hnested : e.nested indent = (e.name ++ front indent) ++ (e.body ++ back indent) := by
    simp only [Entry.nested, front, back, List.append_assoc]
  have hlead : ∀ b ∈ e.name ++ front indent, Plain b := by
    intro b hb
    rcases List.mem_append.1 hb with hb | hb
    · exact (Text.quiet_of_isWord (h.word b hb)).1
    · exact (Text.quiet_front hi hb).1.1
  have hback : ∀ b ∈ back indent, Plain b := fun b hb => (Text.quiet_back hi hb).1.1
  obtain ⟨h1, h2⟩ := after_cells_plain hlead ((e.body ++ back indent).head?.or none)
  obtain ⟨h3, h4⟩ := h.read_body ((back indent).head?.or none)
  obtain ⟨-, h5⟩ := after_cells_plain hback none
  have hkey : codeCells (e.name ++ .ofString ": ") =
      codeCells e.name ++ codeCells (.ofString ": ") :=
    List.map_append
  have haround := cells_around indent (ofText e.body).cells.toList []
  rw [List.append_nil] at haround
  rw [toList_ofText, hnested, cells_append, h1, h2, cells_append, h3, h4, h5,
    List.map_append, List.append_assoc, haround, hkey, List.append_assoc]

/-- **The nested shape is read back.** -/
theorem exists_isNested (h : e.Enclosed) (hi : indent.IsIndent) :
    ∃ key field close, (ofText (e.nested indent)).IsNested e key field close := by
  obtain ⟨ds, hds, hbody⟩ := h.exists_cells_body
  have htext : (ofText e.body).cells.toList.map Cell.byte = e.body := text_ofText e.body
  have hslice := h.cells_nested hi
  rw [hbody] at htext hslice
  generalize ofText (e.nested indent) = s at hslice ⊢
  rw [← slice_zero_size] at hslice
  obtain ⟨value, hkey, hname, hlt, hslice⟩ := exists_isKey_of_slice (Nat.zero_le _) (Nat.le_refl _)
    hslice h.ne_nil h.word (.inl rfl)
  have hencl : Encloses s value s.size _ := ⟨Nat.le_of_lt hlt, Nat.le_refl _, hslice⟩
  obtain ⟨field, close, hfield, hdefault, hconf, hcomma, hspaces⟩ := hencl.exists_field hi
  exact ⟨_, field, close,
    { key_eq := key?_eq_some.2 ⟨rfl, _, hkey⟩
      name_eq := hname
      closing := hencl.closing (neutral_nestCells hi (neutral_braces hds) 0)
      field_eq := hfield
      field_name := hdefault
      field_closing := hconf.closing hds
      body_eq := by rw [bytes_eq, hconf.slice_eq, htext]
      comma := hcomma
      spaces := hspaces }⟩

end Entry.Enclosed

namespace Source

/-- **A flat entry comes back from its nested shape.** Every flat entry that is found in a text can
be cut out of it, with the bytes of its name and of its configuration. Its nested shape, whatever
the indentation, gives both back, and is no flat entry. -/
theorem unnest?_nested (cs : List Char) {i : Nat} {f : FlatEntry}
    (h : flatEntry? (ofText (.ofChars cs)) i = some f) :
    ∃ e, (ofText (.ofChars cs)).readFlat f = .ok e ∧
      e.name = (ofText (.ofChars cs)).bytes f.name ∧
      e.body = (ofText (.ofChars cs)).bytes f.body ∧ ∀ indent : Text, indent.IsIndent →
        (∃ key field close, (ofText (e.nested indent)).IsNested e key field close) ∧
        (ofText (e.nested indent)).unnest? = some e ∧
        flatEntry? (ofText (e.nested indent)) 0 = none := by
  obtain ⟨-, colon, hflat⟩ := flatEntry?_eq_some.1 h
  refine ⟨_, readFlat_eq (Text.wellFormed_ofChars cs) hflat, rfl, rfl, fun indent hi => ?_⟩
  obtain ⟨key, field, close, hnested⟩ := hflat.enclosed.exists_isNested hi
  exact ⟨⟨key, field, close, hnested⟩, hnested.unnest?_eq, hnested.flatEntry?_eq_none⟩

/-- A configuration with braces in a literal, in a comment and behind an escaped backtick, with a
bracket that is not closed and a parenthesis that is not opened. -/
def hiddenBraces : List Char :=
  "ü: \x7b apiKey: '\x7d' /* \x7b */, h: [ \x7b x: `\\`\x7b` \x7d ) \x7d // \x7d".toList

/-- Only the braces of the code count, in the text and in the nested shape. -/
theorem unnest?_nested_hiddenBraces :
    flatEntry? (ofText (.ofChars hiddenBraces)) 0 = some ⟨⟨0, 2⟩, ⟨4, 48⟩⟩ ∧
    (Text.ofString " \t").IsIndent ∧
    ∃ e, (ofText (.ofChars hiddenBraces)).readFlat ⟨⟨0, 2⟩, ⟨4, 48⟩⟩ = .ok e ∧
      e.name = .ofString "ü" ∧
      e.body = .ofString
        "\x7b apiKey: '\x7d' /* \x7b */, h: [ \x7b x: `\\`\x7b` \x7d ) \x7d" ∧
      (∃ key field close,
        (ofText (e.nested (.ofString " \t"))).IsNested e key field close) ∧
      (ofText (e.nested (.ofString " \t"))).unnest? = some e ∧
      flatEntry? (ofText (e.nested (.ofString " \t"))) 0 = none := by
  have hflat : flatEntry? (ofText (.ofChars hiddenBraces)) 0 = some ⟨⟨0, 2⟩, ⟨4, 48⟩⟩ := by
    decide +kernel
  have hindent : (Text.ofString " \t").IsIndent :=
    show ∀ b ∈ Text.ofString " \t", b = Byte.space ∨ b = Byte.tab by decide
  obtain ⟨e, he, hname, hbody, hnested⟩ := unnest?_nested hiddenBraces hflat
  exact ⟨hflat, hindent, e, he, hname.trans (by decide +kernel), hbody.trans (by decide +kernel),
    hnested _ hindent⟩

end Source

end ProviderNest
