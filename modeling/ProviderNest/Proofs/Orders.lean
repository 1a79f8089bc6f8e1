import Mathlib.Data.List.Pairwise
import Mathlib.Data.List.Perm.Basic
import ProviderNest.Proofs.Batches

/-!
# The order of the targets

Two targets that do not lead to one file have nothing to do with each other: writing a file changes
neither where a path leads (`FileTree.locate_write`) nor what is read at another location
(`FileTree.readText_write`), so what is done with a target is the same before and after another one
was processed (`Batch.process_after`). A batch of such targets therefore does with each of them what
it would do with it alone (`Batch.processAll_apart`), and since writes to different locations
commute, `Batch.run_perm` says that their order makes no difference.
-/

namespace ProviderNest

namespace FileTree

variable {tree : FileTree} {cwd k l : Location} {p q : Path} {t u v : Text}

/-- The two paths do not both lead to one file. -/
def Apart (tree : FileTree) (cwd : Location) (p q : Path) : Prop :=
  tree.isFile cwd p = true → tree.isFile cwd q = true → tree.locate cwd p ≠ tree.locate cwd q

instance (tree : FileTree) (cwd : Location) (p q : Path) : Decidable (tree.Apart cwd p q) :=
  inferInstanceAs (Decidable (_ = true → _ = true → _))

/-- It does not matter in which order two paths that are apart are taken. -/
theorem Apart.symm (h : tree.Apart cwd p q) : tree.Apart cwd q p :=
  fun hq hp heq => h hp hq heq.symm

/-- What is read is at the location to which the path leads, and a file. -/
theorem locate_of_readText (h : tree.readText cwd p = .ok (l, t)) :
    tree.locate cwd p = .ok l ∧ tree.isFile cwd p = true := by
  obtain ⟨hnode, -⟩ := node?_of_readText h
  simp only [readText, bind, Except.bind] at h
  cases hl : tree.locate cwd p with
  | error e => simp only [hl, reduceCtorEq] at h
  | ok m =>
    have hm : m = l := by
      simp only [hl] at h
      cases hr : tree.readAt m with
      | error e => simp only [hr, reduceCtorEq] at h
      | ok bytes =>
        simp only [hr] at h
        split at h
        · exact congrArg Prod.fst (Except.ok.inj h)
        · cases h
    subst hm
    exact ⟨rfl, by rw [isFile, hl]; dsimp only; rw [hnode]⟩

/-! ## Writing a file -/

/-- A part of a path leads to the same location after a file was written. -/
theorem step_write (h : tree.node? l = some (.file t)) : (tree.write l u).step = tree.step := by
  funext k part
  have hsome (m : Location) : ((tree.write l u).node? m).isSome = (tree.node? m).isSome := by
    by_cases hm : m = l
    · rw [hm, node?_write_self h, h]
      rfl
    · rw [node?_write_of_ne hm]
  rw [step, step, hsome]
  by_cases hk : k = l
  · rw [hk, node?_write_self h, h]
  · rw [node?_write_of_ne hk]

/-- A path leads to the same location after a file was written. -/
theorem locate_write (h : tree.node? l = some (.file t)) :
    (tree.write l u).locate cwd p = tree.locate cwd p := by
  rw [locate, locate, step_write h]

/-- A write to a file leaves every path a file that is one, and makes no other path one. -/
theorem isFile_write (h : tree.node? l = some (.file t)) :
    (tree.write l u).isFile cwd p = tree.isFile cwd p := by
  rw [isFile, isFile, locate_write h]
  cases tree.locate cwd p with
  | error e => rfl
  | ok m =>
    dsimp only
    by_cases hm : m = l
    · rw [hm, node?_write_self h, h]
    · rw [node?_write_of_ne hm]

/-- A write to a file leaves paths apart that are apart. -/
theorem Apart.write (hw : tree.node? l = some (.file t)) (h : tree.Apart cwd p q) :
    (tree.write l u).Apart cwd p q := by
  rw [Apart, isFile_write hw, isFile_write hw, locate_write hw, locate_write hw]
  exact h

/-- What is read where a path leads, unless something else was written there. -/
theorem readText_write (h : tree.node? l = some (.file t)) (hp : tree.locate cwd p ≠ .ok l) :
    (tree.write l u).readText cwd p = tree.readText cwd p := by
  rw [readText, readText, locate_write h]
  cases hl : tree.locate cwd p with
  | error e => rfl
  | ok m =>
    have hm : m ≠ l := fun heq => hp (by rw [hl, heq])
    simp only [bind, Except.bind, readAt, node?_write_of_ne hm]

/-- Writes to different locations commute. -/
theorem write_comm (h : k ≠ l) : (tree.write k u).write l v = (tree.write l v).write k u := by
  simp only [write, List.map_map, FileTree.mk.injEq]
  refine List.map_congr_left fun n _ => ?_
  simp only [Function.comp_apply]
  by_cases hk : n.1 = k
  · have hl : n.1 ≠ l := fun hl => h (hk.symm.trans hl)
    simp [hk, h]
  · by_cases hl : n.1 = l
    · simp [hl, Ne.symm h]
    · simp [hk, hl]

end FileTree

namespace Batch

section
variable {cwd : Location} {root : Path} {tree : FileTree} {target other : Path} {p : Processed}

/-- What is written is written to the file that the target leads to. -/
theorem written_of_process {l : Location} {u : Text} (h : process tree cwd root target = .ok p)
    (hw : p.written = some (l, u)) : tree.locate cwd (root.join target) = .ok l ∧
      tree.isFile cwd (root.join target) = true ∧ ∃ t, tree.node? l = some (.file t) := by
  rw [process] at h
  cases hr : tree.readText cwd (root.join target) with
  | error e =>
    rw [hr] at h
    cases h
    rw [written_processError] at hw
    cases hw
  | ok x =>
    obtain ⟨k, t⟩ := x
    obtain ⟨hnode, cs, rfl⟩ := FileTree.node?_of_readText hr
    obtain ⟨hlocate, hfile⟩ := FileTree.locate_of_readText hr
    obtain ⟨m, hm⟩ : ∃ m, Pipeline.batch.run (.ofChars cs) = .ok m :=
      runPasses_ok (Text.wellFormed_ofChars cs) _
    suffices hk : k = l by
      subst hk
      exact ⟨hlocate, hfile, _, hnode⟩
    rw [hr] at h
    simp only [processText, hm, bind, Except.bind] at h
    split at h
    · cases h
      cases hw
    split at h
    · cases h
      cases hw
    · cases h
      exact congrArg Prod.fst (Option.some.inj hw)

/-- **What is done with a target does not depend on another one** that was processed before. -/
theorem process_after (h : process tree cwd root target = .ok p)
    (ha : tree.Apart cwd (root.join target) (root.join other)) :
    process (after tree p) cwd root other = process tree cwd root other := by
  rw [after]
  cases hw : p.written with
  | none => rfl
  | some x =>
    obtain ⟨hlocate, hfile, t, hnode⟩ := written_of_process h hw
    dsimp only
    -- A target at the written location is no file, by independence, so it is not reached.
    have hne : tree.locate cwd (root.join other) ≠ .ok x.1 := by
      intro hother
      refine ha hfile ?_ (hlocate.trans hother.symm)
      rw [FileTree.isFile, hother]
      dsimp only
      rw [hnode]
    rw [process, process, FileTree.readText_write hnode hne]

/-- One step of a batch leaves paths apart that are apart. -/
theorem Apart.after {q r : Path} (h : process tree cwd root target = .ok p)
    (ha : tree.Apart cwd q r) : (after tree p).Apart cwd q r := by
  rw [Batch.after]
  cases hw : p.written with
  | none => exact ha
  | some x =>
    obtain ⟨-, -, t, hnode⟩ := written_of_process h hw
    exact ha.write hnode

/-- What two independent targets write can be written in either order, whatever the tree is by
then. -/
theorem after_comm {q : Processed} (hp : process tree cwd root target = .ok p)
    (hq : process tree cwd root other = .ok q)
    (ha : tree.Apart cwd (root.join target) (root.join other)) (now : FileTree) :
    after (after now p) q = after (after now q) p := by
  simp only [after]
  cases hwp : p.written with
  | none => rfl
  | some x =>
    cases hwq : q.written with
    | none => rfl
    | some y =>
      obtain ⟨hx, hfx, -⟩ := written_of_process hp hwp
      obtain ⟨hy, hfy, -⟩ := written_of_process hq hwq
      refine FileTree.write_comm fun heq => ha hfx hfy ?_
      rw [hx, hy, heq]

/-- **Independent targets are processed as each of them would be alone.** -/
theorem processAll_apart {targets : List Path} {alone : Path → Processed}
    (hg : ∀ q ∈ targets, process tree cwd root q = .ok (alone q))
    (ha : targets.Pairwise fun p q => tree.Apart cwd (root.join p) (root.join q)) :
    ∃ r, processAll cwd root tree targets = .ok r ∧
      r.files = targets.map (fun q => ⟨q, (alone q).status⟩) ∧
      r.tree = targets.foldl (fun now q => after now (alone q)) tree := by
  induction targets generalizing tree with
  | nil => exact ⟨_, rfl, rfl, rfl⟩
  | cons target targets ih =>
    obtain ⟨hfirst, hrest⟩ := List.pairwise_cons.1 ha
    have htarget := hg target List.mem_cons_self
    obtain ⟨r, hr, hfiles, htree⟩ := @ih (after tree (alone target))
      (fun q hq => (process_after htarget (hfirst q hq)).trans (hg q (List.mem_cons_of_mem _ hq)))
      (hrest.imp fun h => Apart.after htarget h)
    refine ⟨_, processAll_cons htarget hr, ?_, htree⟩
    rw [List.map_cons, ← hfiles]

end

end Batch

/-- The order of the files does not change their summary. -/
theorem Report.summary_perm {files files' : List FileReport} (h : files.Perm files') :
    Report.summary ⟨files⟩ = Report.summary ⟨files'⟩ := by
  have htally (test : Status → Bool) : tally ⟨files⟩ test = tally ⟨files'⟩ test := h.countP_eq _
  simp only [summary_eq, htally]

/-- **The order of independent targets does not matter.** Of two lists with the same targets, no two
of which lead to one file, a batch makes the same: it leaves the same tree, it gives every target
the same status, and the summaries are equal. -/
theorem Batch.run_perm (tree : FileTree) (cwd : Location) (root : Path)
    (targets targets' : List Path)
    (hperm : targets.Perm targets')
    (hapart : targets.Pairwise fun p q => tree.Apart cwd (root.join p) (root.join q)) :
    ∃ (r r' : BatchRun) (status : Path → Status),
      Batch.run ⟨root, targets⟩ tree cwd = .ok r ∧ Batch.run ⟨root, targets'⟩ tree cwd = .ok r' ∧
      r.tree = r'.tree ∧ r.files = targets.map (fun p => ⟨p, status p⟩) ∧
      r'.files = targets'.map (fun p => ⟨p, status p⟩) ∧
      r.report.summary = r'.report.summary := by
  choose alone halone using fun target => Batch.step_process tree cwd root target
  have hall (target : Path) := (halone target).1
  have : Std.Symm fun p q => tree.Apart cwd (root.join p) (root.join q) :=
    ⟨fun _ _ => FileTree.Apart.symm⟩
  have hapart' := (hperm.pairwise_iff FileTree.Apart.symm).1 hapart
  obtain ⟨r, hr, hfiles, htree⟩ := Batch.processAll_apart (fun q _ => hall q) hapart
  obtain ⟨r', hr', hfiles', htree'⟩ := Batch.processAll_apart (fun q _ => hall q) hapart'
  refine ⟨_, _, fun p => (alone p).status, Batch.run_eq hr, Batch.run_eq hr', ?_, hfiles, hfiles',
    ?_⟩
  · show r.tree = r'.tree
    rw [htree, htree']
    refine hperm.foldl_eq' (fun p hp q hq now => ?_) tree
    by_cases heq : p = q
    · rw [heq]
    · exact Batch.after_comm (hall p) (hall q) (hapart.forall hp hq heq) now
  · refine Report.summary_perm ?_
    rw [hfiles, hfiles']
    exact hperm.map _

/-- A file that is updated, one that is not text, a directory and two missing files, in two orders.
-/
theorem Batch.run_perm_mixed : ∃ (r r' : BatchRun) (status : Path → Status),
    Batch.run ⟨⟨"w"⟩, [⟨"a.ts"⟩, ⟨"b.ts"⟩, ⟨"."⟩, ⟨"c.ts"⟩, ⟨"c.ts"⟩]⟩
      ⟨[(["w"], .directory), (["w", "a.ts"], .file (.ofString "x: process.env.X")),
        (["w", "b.ts"], .file [0xFF])]⟩ [] = .ok r ∧
    Batch.run ⟨⟨"w"⟩, [⟨"b.ts"⟩, ⟨"a.ts"⟩, ⟨"."⟩, ⟨"c.ts"⟩, ⟨"c.ts"⟩]⟩
      ⟨[(["w"], .directory), (["w", "a.ts"], .file (.ofString "x: process.env.X")),
        (["w", "b.ts"], .file [0xFF])]⟩ [] = .ok r' ∧
    r.tree = r'.tree ∧
    r.files = [⟨⟨"a.ts"⟩, status ⟨"a.ts"⟩⟩, ⟨⟨"b.ts"⟩, status ⟨"b.ts"⟩⟩, ⟨⟨"."⟩, status ⟨"."⟩⟩,
      ⟨⟨"c.ts"⟩, status ⟨"c.ts"⟩⟩, ⟨⟨"c.ts"⟩, status ⟨"c.ts"⟩⟩] ∧
    r'.files = [⟨⟨"b.ts"⟩, status ⟨"b.ts"⟩⟩, ⟨⟨"a.ts"⟩, status ⟨"a.ts"⟩⟩, ⟨⟨"."⟩, status ⟨"."⟩⟩,
      ⟨⟨"c.ts"⟩, status ⟨"c.ts"⟩⟩, ⟨⟨"c.ts"⟩, status ⟨"c.ts"⟩⟩] ∧
    r.report.summary = r'.report.summary :=
  Batch.run_perm _ _ _ _ _ (List.Perm.swap _ _ _) (by decide +kernel)

end ProviderNest
