import ProviderNest.Proofs.Blocks

/-!
# Bodies written anew

A pass that rebuilds objects leaves all other cells as they are. `Renewed as bs` says that the cells
`bs` come from `as` in this way: what some of the braces enclose is written anew, and what is known
of the old and the new body is a `Renewal`.

Read from the new cells back to the old ones, a key stands where it stood, and braces enclose a
renewed body or one in which bodies are renewed (`Renewed.braces`). So a flat entry of the new cells
was flat before (`Renewed.hasFlat`), since a renewal has no flat entry and begins with `apiKey` only
if the old body did, and a block with a flat entry was such a block (`Renewed.blockCells`).
-/

namespace ProviderNest

open LexState Source

/-- The body `es` of an object takes the place of the body `ds`. -/
structure Renewal (ds es : List Cell) : Prop where
  old_closed : closers ds 0 = some 0
  new_closed : closers es 0 = some 0
  old_level : Piece 0 (⟨Byte.openBrace, .code⟩ :: (ds ++ [⟨Byte.closeBrace, .code⟩]))
  new_level : Piece 0 (⟨Byte.openBrace, .code⟩ :: (es ++ [⟨Byte.closeBrace, .code⟩]))
  opens : Opens es → Opens ds
  not_hasFlat : ¬ HasFlat es

/-- The second cells are the first ones with some bodies written anew. -/
inductive Renewed : List Cell → List Cell → Prop
  | nil : Renewed [] []
  | cell {as bs : List Cell} (c : Cell) : Renewed as bs → Renewed (c :: as) (c :: bs)
  | body {as bs ds es : List Cell} : Renewal ds es → Renewed as bs →
      Renewed (⟨Byte.openBrace, .code⟩ :: (ds ++ ⟨Byte.closeBrace, .code⟩ :: as))
        (⟨Byte.openBrace, .code⟩ :: (es ++ ⟨Byte.closeBrace, .code⟩ :: bs))

/-- A piece stays undivided inside of braces that are open. -/
theorem Piece.undivided_of_le {cs : List Cell} {d : Int} (h : Piece 0 cs) (hd : 0 ≤ d) :
    Undivided d cs := by
  rcases Int.lt_or_eq_of_le hd with hlt | rfl
  · have := h.upright.undivided hlt
    rwa [Int.zero_add] at this
  · exact h.undivided

namespace Renewed

variable {as bs cs ds es k : List Cell}

theorem refl (cs : List Cell) : Renewed cs cs := by
  induction cs with
  | nil => exact .nil
  | cons c cs ih => exact .cell c ih

theorem append (h : Renewed as bs) (h' : Renewed cs ds) : Renewed (as ++ cs) (bs ++ ds) := by
  induction h with
  | nil => exact h'
  | cell c _ ih => exact .cell c ih
  | body hr _ ih => simpa using Renewed.body hr ih

/-- Renewed cells leave as many closing braces as they did. -/
theorem closers_eq {d : Nat} (h : Renewed as bs) : closers bs d = closers as d := by
  have hneutral {cs : List Cell} (h : closers cs 0 = some 0) : Neutral cs := fun k => by
    rw [closers_add h, Nat.zero_add]
  induction h with
  | nil => rfl
  | cell c _ ih => rw [closers, closers, ih]
  | body hr _ ih =>
    rw [closers, closers, (hneutral hr.old_closed).closers, (hneutral hr.new_closed).closers,
      closers, closers, ih]

/-- Renewed cells end as they did. -/
theorem getLast?_eq (h : Renewed as bs) : bs.getLast? = as.getLast? := by
  induction h with
  | nil => rfl
  | cell c _ ih => rw [List.getLast?_cons, List.getLast?_cons, ih]
  | body _ _ ih =>
    rw [List.getLast?_cons, List.getLast?_cons, List.getLast?_append, List.getLast?_append,
      List.getLast?_cons, List.getLast?_cons, ih]
    rfl

theorem detached_iff (h : Renewed as bs) : Detached bs ↔ Detached as := by
  rw [Detached, Detached, h.getLast?_eq]

/-! ## Back to the old cells -/

/-- The first of the new cells is the first of the old ones. Behind it comes what is renewed, or
behind a brace the body that is written anew. -/
theorem uncons {c : Cell} (h : Renewed as (c :: bs)) : ∃ cs, as = c :: cs ∧ (Renewed cs bs ∨
    c = ⟨Byte.openBrace, .code⟩ ∧ ∃ ds es xs ys, cs = ds ++ ⟨Byte.closeBrace, .code⟩ :: xs ∧
      bs = es ++ ⟨Byte.closeBrace, .code⟩ :: ys ∧ Renewal ds es ∧ Renewed xs ys) := by
  generalize hcs : c :: bs = cs at h
  cases h with
  | nil => cases hcs
  | cell x h =>
    obtain ⟨rfl, rfl⟩ := List.cons.inj hcs
    exact ⟨_, rfl, .inl h⟩
  | body hr h =>
    obtain ⟨rfl, rfl⟩ := List.cons.inj hcs
    exact ⟨_, rfl, .inr ⟨rfl, _, _, _, _, rfl, rfl, hr, h⟩⟩

/-- Before the first brace nothing is written anew. -/
theorem of_inert (h : Renewed as (k ++ bs)) (hk : Inert k) :
    ∃ cs, as = k ++ cs ∧ Renewed cs bs := by
  induction k generalizing as with
  | nil => exact ⟨as, rfl, h⟩
  | cons c k ih =>
    obtain ⟨cs, rfl, hcs | ⟨rfl, -⟩⟩ := h.uncons
    · obtain ⟨xs, rfl, hxs⟩ := ih hcs fun x hx => hk x (List.mem_cons_of_mem _ hx)
      exact ⟨xs, rfl, hxs⟩
    · exact absurd List.mem_cons_self hk.not_open

theorem eq_of_inert (h : Renewed as k) (hk : Inert k) : as = k := by
  rw [← List.append_nil k] at h
  obtain ⟨cs, rfl, hcs⟩ := h.of_inert hk
  cases hcs
  exact List.append_nil k

/-- The new cells are cut where no body is written anew if the first part leaves no brace open. -/
theorem split (h : Renewed as (bs ++ cs)) (hb : (closers bs 0).isSome = true) :
    ∃ xs ys, as = xs ++ ys ∧ Renewed xs bs ∧ Renewed ys cs := by
  generalize hes : bs ++ cs = es at h
  induction h generalizing bs with
  | nil =>
    obtain ⟨rfl, rfl⟩ := List.append_eq_nil_iff.1 hes
    exact ⟨[], [], rfl, .nil, .nil⟩
  | cell c h ih =>
    cases bs with
    | nil =>
      obtain rfl : cs = _ := hes
      exact ⟨[], _, rfl, .nil, .cell c h⟩
    | cons x bs =>
      obtain ⟨rfl, hrest⟩ := List.cons.inj hes
      obtain ⟨xs, ys, rfl, hx, hy⟩ := ih (isSome_closers_of_cons hb) hrest
      exact ⟨_, ys, rfl, .cell _ hx, hy⟩
  | body hr h ih =>
    cases bs with
    | nil =>
      obtain rfl : cs = _ := hes
      exact ⟨[], _, rfl, .nil, .body hr h⟩
    | cons x bs =>
      obtain ⟨rfl, hrest⟩ := List.cons.inj hes
      -- A cut inside the new body would leave its brace open.
      rcases append_cons_cut hrest.symm with ⟨m, rfl, -⟩ | ⟨m, rfl, rfl⟩
      · exact absurd hb (not_isSome_closers hr.new_closed (List.nil_append _).symm)
      · have hrest := isSome_closers_of_append (isSome_closers_of_cons hb)
        obtain ⟨xs, ys, rfl, hx, hy⟩ := ih (isSome_closers_of_cons hrest) rfl
        exact ⟨_, ys, by simp, .body hr hx, hy⟩

/-- **Braces of the new cells** enclose a body that is written anew or one in which bodies are. -/
theorem braces (h : Renewed as (⟨Byte.openBrace, .code⟩ :: (es ++ ⟨Byte.closeBrace, .code⟩ :: bs)))
    (hes : closers es 0 = some 0) : ∃ ds cs,
      as = ⟨Byte.openBrace, .code⟩ :: (ds ++ ⟨Byte.closeBrace, .code⟩ :: cs) ∧
      closers ds 0 = some 0 ∧ Renewed cs bs ∧ (Renewed ds es ∨ Renewal ds es) := by
  obtain ⟨ms, rfl, hms | ⟨-, ds, es', xs, ys, rfl, heq, hr, hxs⟩⟩ := h.uncons
  · obtain ⟨ds, ys, rfl, hds, hys⟩ := hms.split (by rw [hes]; rfl)
    obtain ⟨cs, rfl, hcs | ⟨hopen, -⟩⟩ := hys.uncons
    · exact ⟨ds, cs, rfl, hds.closers_eq.symm.trans hes, hcs, .inl hds⟩
    · exact absurd hopen (by decide)
  · obtain ⟨rfl, rfl⟩ := closed_inj hes hr.new_closed heq
    exact ⟨ds, xs, rfl, hr.old_closed, hxs, .inr hr⟩

/-! ## First fields, flat entries and blocks -/

/-- The field `apiKey` was in front before. -/
theorem opens (h : Renewed ds es) (ho : Opens es) : Opens ds := by
  obtain ⟨u, m, r, hu, hm, rfl, hr⟩ := ho
  obtain ⟨xs, rfl, hxs⟩ := h.of_inert (inert_of_isTrivia hu)
  obtain ⟨cs, rfl, hcs⟩ := hxs.of_inert hm.inert
  refine ⟨u, m, cs, hu, hm, rfl, fun hhead => hr ?_⟩
  cases hcs with
  | nil => cases hhead
  | cell => exact hhead
  | body => cases hhead

/-- What is a flat entry was one before. -/
theorem flatPiece (h : Renewed as bs) (hf : FlatPiece bs) : FlatPiece as := by
  obtain ⟨z, _, y, rfl, hz, hy, htrimmed, u, w, k, ds, r, hshape, rfl⟩ := hf
  obtain ⟨_, rfl, hblank⟩ := h.of_inert (inert_of_blanks hz)
  rw [List.append_assoc, List.append_assoc, List.cons_append, List.append_assoc,
    List.cons_append] at hblank
  obtain ⟨_, rfl, htrivia⟩ := hblank.of_inert (inert_of_isTrivia hshape.trivia_before)
  obtain ⟨_, rfl, hkey⟩ := htrivia.of_inert (hshape.key.inert hshape.word)
  obtain ⟨ds', cs, rfl, hclosed, hcs, hds⟩ := hkey.braces hshape.closed
  obtain rfl := hcs.eq_of_inert
    ((inert_of_isTrivia hshape.trivia_behind).append (inert_of_blanks hy))
  have hopens : Opens ds' := hds.elim (fun h => h.opens hshape.opens) fun h => h.opens hshape.opens
  -- The key and the brace are long enough to keep the ends of the entry apart.
  have hlength : 3 ≤ ((u ++ (k ++ [(⟨Byte.openBrace, .code⟩ : Cell)])).map Cell.byte).length := by
    obtain ⟨v, v', -, -, rfl⟩ := hshape.key
    have := List.length_pos_iff.2 hshape.ne_nil
    simp only [List.length_map, List.length_append, List.length_cons, List.length_nil]
    omega
  have htrimmed' := Text.Trimmed.of_middle (v := ds.map Cell.byte) (w := ds'.map Cell.byte)
    (x := ((⟨Byte.closeBrace, .code⟩ : Cell) :: r).map Cell.byte) (by simpa using htrimmed) hlength
    (List.cons_ne_nil _ _) (fun b hb => by cases hb; decide)
  exact ⟨z, _, y, by simp, hz, hy, by simpa using htrimmed', u, w, k, ds', r,
    { hshape with closed := hclosed, opens := hopens }, rfl⟩

/-- **Renewed cells are divided where they were.** -/
theorem divide {d : Int} (h : Renewed as bs) (hd : Upright d as) :
    List.Forall₂ Renewed (divide d as) (divide d bs) := by
  have hhead {f g : List Cell → List Cell} {xs ys : List (List Cell)}
      (hfg : ∀ x y, Renewed x y → Renewed (f x) (g y)) (h : List.Forall₂ Renewed xs ys) :
      List.Forall₂ Renewed (xs.modifyHead f) (ys.modifyHead g) := by
    cases h with
    | nil => exact .nil
    | cons hxy hrest => exact .cons (hfg _ _ hxy) hrest
  induction h generalizing d with
  | nil => exact .cons .nil .nil
  | cell c _ ih =>
    obtain ⟨-, hd⟩ := hd
    rw [ProviderNest.divide, ProviderNest.divide]
    split
    · next hc =>
      obtain ⟨rfl, rfl⟩ := hc
      exact .cons .nil (ih hd)
    · exact hhead (fun x y hxy => .cell c hxy) (ih hd)
  | @body as bs ds es hr _ ih =>
    have hform (cs xs : List Cell) : ⟨Byte.openBrace, .code⟩ ::
        (cs ++ ⟨Byte.closeBrace, .code⟩ :: xs) =
          ⟨Byte.openBrace, .code⟩ :: (cs ++ [⟨Byte.closeBrace, .code⟩]) ++ xs := by simp
    have hold := hr.old_level.closes
    have hnew := hr.new_level.closes
    rw [Int.zero_add] at hold hnew
    rw [hform, upright_append, hold, Int.add_zero] at hd
    have hle : 0 ≤ d := hd.1.1
    rw [hform ds, hform es, divide_append (hr.old_level.undivided_of_le hle),
      divide_append (hr.new_level.undivided_of_le hle), hold, hnew, Int.add_zero]
    refine hhead (fun x y hxy => ?_) (ih hd.2)
    rw [← hform ds, ← hform es]
    exact .body hr hxy

/-- **A body with a flat entry had one before.** -/
theorem hasFlat (h : Renewed ds es) (hd : Upright 0 ds) (hf : HasFlat es) : HasFlat ds := by
  obtain ⟨p, hp, hflat⟩ := hf
  obtain ⟨q, hq, hpq⟩ := exists_of_forall₂ (h.divide hd).flip hp
  exact ⟨q, hq, hpq.flatPiece hflat⟩

/-- **A block with a flat entry was a block before,** and bodies are written anew in it only. -/
theorem blockCells (h : Renewed as bs) (hb : BlockCells bs es) (hf : HasFlat es) :
    ∃ ds, BlockCells as ds ∧ Renewed ds es := by
  obtain ⟨k, r, hk, hes, rfl⟩ := hb
  obtain ⟨_, rfl, hkey⟩ := h.of_inert (hk.inert isWord_providersKey)
  obtain ⟨ds, cs, rfl, hds, -, hr | hr⟩ := hkey.braces hes
  · exact ⟨ds, ⟨k, cs, hk, hds, rfl⟩, hr⟩
  · exact absurd hf hr.not_hasFlat

end Renewed

end ProviderNest
