import Mathlib.Data.List.Nodup
import ProviderNest.Proofs.Lexing
import ProviderNest.Source.Brace
import ProviderNest.Source.Matching

/-!
# The walks over braces and the stack

`Source.closing?` counts braces forwards and `Source.enclosing?` counts them backwards, each from
the position it is asked about. Both give what one stack gives that reads the braces from the start
of the text (`Source.braces_eq_matching`).

The count of a walk is a place on the stack. A backward walk with `depth` closing braces to match
ends at the brace that lies below `depth` others (`Source.enclosingBelow_eq`), and a forward walk
under `depth` open braces ends where the brace below `depth` others is paired
(`Source.closingFrom_eq_some`). The second needs the invariant of the stack: a brace that is still
open has not been paired, and no brace is paired twice (`Matching.Sound`).
-/

namespace ProviderNest

open Source

/-! ## Steps of the stack -/

namespace Source

variable {s : Source} {i : Nat} {m : Matching}

/-- An opening brace is put on the stack. -/
theorem matchStep_open (h : s.codeByte? i = some Byte.openBrace) :
    s.matchStep m i = ⟨m.pairs, i :: m.stack⟩ := by
  rw [matchStep, if_pos h]

/-- A closing brace is paired with the brace on top of the stack. -/
theorem matchStep_close {top : Nat} {rest : List Nat} (h : s.codeByte? i = some Byte.closeBrace)
    (hm : m.stack = top :: rest) : s.matchStep m i = ⟨(top, i) :: m.pairs, rest⟩ := by
  rw [matchStep, if_neg (by rw [h]; decide), if_pos h, hm]

/-- A closing brace is passed over if no brace is open. -/
theorem matchStep_stray (h : s.codeByte? i = some Byte.closeBrace) (hm : m.stack = []) :
    s.matchStep m i = m := by
  rw [matchStep, if_neg (by rw [h]; decide), if_pos h, hm]

/-- Everything else is passed over. -/
theorem matchStep_other (ho : s.codeByte? i ≠ some Byte.openBrace)
    (hc : s.codeByte? i ≠ some Byte.closeBrace) : s.matchStep m i = m := by
  rw [matchStep, if_neg ho, if_neg hc]

/-- A closing brace takes the top off the stack. -/
theorem stack_close (h : s.codeByte? i = some Byte.closeBrace) :
    (s.matchStep m i).stack = m.stack.tail := by
  cases hm : m.stack with
  | nil => rw [matchStep_stray h hm, hm, List.tail_nil]
  | cons top rest => rw [matchStep_close h hm, List.tail_cons]

/-- A step keeps the pairs that have been found. -/
theorem pairs_matchStep (s : Source) (m : Matching) (i : Nat) :
    m.pairs ⊆ (s.matchStep m i).pairs := by
  unfold matchStep
  split
  · exact List.Subset.refl _
  split
  · split
    · exact List.Subset.refl _
    · exact List.subset_cons_self _ _
  · exact List.Subset.refl _

/-- The braces read one further. -/
theorem matchingUpTo_succ (s : Source) (n : Nat) :
    s.matchingUpTo (n + 1) = s.matchStep (s.matchingUpTo n) n := by
  rw [matchingUpTo, List.range_succ, List.foldl_append]
  rfl

/-- Reading on keeps the pairs that have been found. -/
theorem pairs_matchingUpTo (s : Source) (i n : Nat) :
    (s.matchingUpTo i).pairs ⊆ (s.matchingUpTo (i + n)).pairs := by
  induction n with
  | zero => exact List.Subset.refl _
  | succ n ih =>
    rw [← Nat.add_assoc, matchingUpTo_succ]
    exact List.Subset.trans ih (pairs_matchStep s _ _)

end Source

/-! ## The invariant of the stack -/

/-- The opening braces of a matching stand in the code before position `i`, and each of them is
either paired, once, or still open. -/
structure Matching.Sound (s : Source) (i : Nat) (m : Matching) : Prop where
  nodup : (m.pairs.map Prod.fst ++ m.stack).Nodup
  opens : ∀ o ∈ m.pairs.map Prod.fst ++ m.stack, o < i ∧ s.codeByte? o = some Byte.openBrace

namespace Matching.Sound

variable {s : Source} {i o c : Nat} {m : Matching}

/-- A brace that is still open is not paired. -/
theorem not_paired (h : m.Sound s i) (ho : o ∈ m.stack) : (o, c) ∉ m.pairs := by
  intro hp
  obtain ⟨-, -, hne⟩ := List.nodup_append.1 h.nodup
  exact hne o (List.mem_map_of_mem hp) o ho rfl

/-- A brace is paired with one brace only. -/
theorem pair_unique {d : Nat} (h : m.Sound s i) (hc : (o, c) ∈ m.pairs) (hd : (o, d) ∈ m.pairs) :
    c = d := by
  obtain ⟨hpairs, -, -⟩ := List.nodup_append.1 h.nodup
  have heq := List.inj_on_of_nodup_map hpairs hc hd rfl
  exact (Prod.mk.inj heq).2

/-- What is paired is an opening brace. -/
theorem opens_of_pair (h : m.Sound s i) (hp : (o, c) ∈ m.pairs) :
    s.codeByte? o = some Byte.openBrace :=
  (h.opens o (List.mem_append_left _ (List.mem_map_of_mem hp))).2

/-- The braces of a matching, in another order, one position on. -/
theorem perm {m' : Matching} (h : m.Sound s i)
    (hp : (m'.pairs.map Prod.fst ++ m'.stack).Perm (m.pairs.map Prod.fst ++ m.stack)) :
    m'.Sound s (i + 1) := by
  refine ⟨hp.nodup_iff.2 h.nodup, fun o ho => ?_⟩
  obtain ⟨hlt, hopen⟩ := h.opens o (hp.mem_iff.1 ho)
  exact ⟨Nat.lt_succ_of_lt hlt, hopen⟩

/-- A step keeps the invariant. -/
theorem step (h : m.Sound s i) : (s.matchStep m i).Sound s (i + 1) := by
  by_cases ho : s.codeByte? i = some Byte.openBrace
  · -- The brace is new: those before it stand at lower positions.
    have hnew : i ∉ m.pairs.map Prod.fst ++ m.stack := fun hi =>
      Nat.lt_irrefl i (h.opens i hi).1
    rw [matchStep_open ho]
    have hperm : (m.pairs.map Prod.fst ++ i :: m.stack).Perm
        (i :: (m.pairs.map Prod.fst ++ m.stack)) := List.perm_middle
    refine ⟨hperm.nodup_iff.2 (List.nodup_cons.2 ⟨hnew, h.nodup⟩), fun o hm => ?_⟩
    rcases List.mem_cons.1 (hperm.mem_iff.1 hm) with rfl | hm
    · exact ⟨Nat.lt_succ_self o, ho⟩
    · obtain ⟨hlt, hopen⟩ := h.opens o hm
      exact ⟨Nat.lt_succ_of_lt hlt, hopen⟩
  by_cases hc : s.codeByte? i = some Byte.closeBrace
  · cases hm : m.stack with
    | nil =>
      rw [matchStep_stray hc hm]
      exact h.perm (List.Perm.refl _)
    | cons top rest =>
      rw [matchStep_close hc hm]
      refine h.perm ?_
      rw [hm]
      exact List.perm_middle.symm
  · rw [matchStep_other ho hc]
    exact h.perm (List.Perm.refl _)

end Matching.Sound

/-- The stack that reads a text keeps the invariant all along. -/
theorem Source.sound_matchingUpTo (s : Source) (n : Nat) : (s.matchingUpTo n).Sound s n := by
  induction n with
  | zero => exact ⟨List.nodup_nil, fun o ho => nomatch ho⟩
  | succ n ih =>
    rw [matchingUpTo_succ]
    exact ih.step

/-! ## The walks -/

namespace Source

variable {s : Source} {i n depth o c : Nat}

/-- **The backward walk** ends at the open brace that lies below `depth` others on the stack. -/
theorem enclosingBelow_eq (s : Source) (i depth : Nat) :
    s.enclosingBelow i depth = (s.matchingUpTo i).stack[depth]? := by
  induction i generalizing depth with
  | zero => rfl
  | succ i ih =>
    rw [matchingUpTo_succ]
    unfold enclosingBelow
    by_cases hc : s.codeByte? i = some Byte.closeBrace
    · rw [if_pos hc, ih, stack_close hc, List.getElem?_tail]
    rw [if_neg hc]
    by_cases ho : s.codeByte? i = some Byte.openBrace
    · rw [if_pos ho, matchStep_open ho]
      cases depth with
      | zero => rfl
      | succ depth => exact ih depth
    · rw [if_neg ho, matchStep_other ho hc, ih]

/-- **The forward walk** ends where the open brace that lies below `depth` others on the stack is
paired. -/
theorem closingFrom_eq_some (ho : (s.matchingUpTo i).stack[depth]? = some o) :
    s.closingFrom n i depth = some c ↔ (o, c) ∈ (s.matchingUpTo (i + n)).pairs := by
  induction n generalizing i depth with
  | zero =>
    have hnot : (o, c) ∉ (s.matchingUpTo i).pairs :=
      (s.sound_matchingUpTo i).not_paired (List.mem_of_getElem? ho)
    rw [closingFrom, Nat.add_zero]
    exact ⟨fun h => (nomatch h), fun h => absurd h hnot⟩
  | succ n ih =>
    rw [show i + (n + 1) = i + 1 + n by omega]
    unfold closingFrom
    by_cases hopen : s.codeByte? i = some Byte.openBrace
    · rw [if_pos hopen]
      refine ih ?_
      rw [matchingUpTo_succ, matchStep_open hopen]
      exact ho
    rw [if_neg hopen]
    by_cases hclose : s.codeByte? i = some Byte.closeBrace
    · rw [if_pos hclose]
      cases depth with
      | zero =>
        -- The brace is paired here, and is not paired again further on.
        obtain ⟨rest, hstack⟩ : ∃ rest, (s.matchingUpTo i).stack = o :: rest := by
          rw [← List.head?_eq_getElem?, List.head?_eq_some_iff] at ho
          exact ho
        have hpair : (o, i) ∈ (s.matchingUpTo (i + 1)).pairs := by
          rw [matchingUpTo_succ, matchStep_close hclose hstack]
          exact List.mem_cons_self
        have hlater := pairs_matchingUpTo s (i + 1) n hpair
        constructor
        · intro h
          cases h
          exact hlater
        · intro h
          exact congrArg some ((s.sound_matchingUpTo _).pair_unique hlater h)
      | succ depth =>
        refine ih ?_
        rw [matchingUpTo_succ, stack_close hclose, List.getElem?_tail]
        exact ho
    · rw [if_neg hclose]
      refine ih ?_
      rw [matchingUpTo_succ, matchStep_other hopen hclose]
      exact ho

/-- The closing brace that the forward walk finds is the one paired on the stack. -/
theorem closing?_eq_some : s.closing? o = some c ↔ (o, c) ∈ s.matching.pairs := by
  rw [closing?, matching]
  by_cases ho : s.codeByte? o = some Byte.openBrace
  · have hsize := lt_size_of_codeByte? ho
    rw [if_pos ho, closingFrom_eq_some (o := o)]
    · rw [Nat.add_sub_cancel' hsize]
    · rw [matchingUpTo_succ, matchStep_open ho]
      rfl
  · rw [if_neg ho]
    constructor
    · intro h
      cases h
    · intro h
      exact absurd ((s.sound_matchingUpTo _).opens_of_pair h) ho

/-- **Both walks compute the matching of the stack.** The brace that closes another one is the one
it is paired with, and the innermost brace that is open before a position is the top of the stack
there, where positions behind the text count as its end. -/
theorem braces_eq_matching (s : Source) :
    (∀ o c, s.closing? o = some c ↔ (o, c) ∈ s.matching.pairs) ∧
    ∀ i, s.enclosing? i = (s.matchingUpTo (min i s.size)).stack.head? := by
  refine ⟨fun o c => closing?_eq_some, fun i => ?_⟩
  rw [enclosing?, enclosingBelow_eq, List.head?_eq_getElem?]

/-- A closing brace too many is passed over, and so is one in a comment: the first of the two
opening braces stays open. -/
example : (ofText (.ofString "\x7d \x7b a \x7b \x7d // \x7d")).matching = ⟨[(6, 8)], [2]⟩ := by
  decide +kernel

end Source

end ProviderNest
