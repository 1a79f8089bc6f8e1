import ProviderNest.Batch
import ProviderNest.Proofs.Bodies

/-!
# Batches one file at a time

`Batch.Step` says what becomes of one target of a batch in terms of `migrate` and of what is read
and written, and `Batch.Steps` puts the targets one after the other: each of them finds the tree
that those before it left. A batch does its own guard, run and comparison, and keeps a log besides;
`Batch.run_steps` says that it goes these steps and no others, whatever the tree and the targets
are, and that its summary counts what the steps report.
-/

namespace ProviderNest

open Source

/-! ## Reading and writing -/

namespace FileTree

variable {tree : FileTree} {l : Location} {t u : Text}

/-- What is read is a file of the tree, and text. -/
theorem node?_of_readText {cwd : Location} {path : Path} (h : tree.readText cwd path = .ok (l, t)) :
    tree.node? l = some (.file t) ∧ ∃ cs, t = .ofChars cs := by
  simp only [readText, bind, Except.bind] at h
  cases hl : tree.locate cwd path with
  | error e => simp only [hl, reduceCtorEq] at h
  | ok k =>
    simp only [hl, readAt] at h
    cases hk : tree.node? k with
    | none => simp only [hk, reduceCtorEq] at h
    | some n =>
      cases n with
      | directory => simp only [hk, reduceCtorEq] at h
      | file bytes =>
        simp only [hk] at h
        split at h
        case isFalse => cases h
        next hd =>
        cases h
        obtain ⟨cs, hcs⟩ := Option.isSome_iff_exists.1 hd
        exact ⟨hk, cs, Text.eq_ofChars_of_decode? hcs⟩

/-- What is looked up in a list after the entries of one key were replaced. -/
theorem lookup_replaced {k : Location} {n : Node} (nodes : List (Location × Node)) :
    (nodes.map fun x => if x.1 = l then (x.1, n) else x).lookup k =
      if k = l then (nodes.lookup k).map fun _ => n else nodes.lookup k := by
  induction nodes with
  | nil => simp only [List.map_nil, List.lookup_nil, Option.map_none, ite_self]
  | cons x nodes ih =>
    obtain ⟨a, node⟩ := x
    rw [List.map_cons]
    by_cases hk : k = a
    · subst hk
      by_cases hl : k = l
      · simp [hl]
      · simp [hl]
    · have hne : (k == a) = false := beq_false_of_ne hk
      split <;> simpa only [List.lookup_cons, hne] using ih

/-- Writing a file puts the new bytes there. -/
theorem node?_write_self (h : tree.node? l = some (.file t)) :
    (tree.write l u).node? l = some (.file u) := by
  rw [node?] at h ⊢
  split at h
  · cases h
  · next hl =>
    rw [if_neg hl, write, lookup_replaced, if_pos rfl, h]
    rfl

/-- Writing a file leaves everything else as it is. -/
theorem node?_write_of_ne {k : Location} (h : k ≠ l) : (tree.write l u).node? k = tree.node? k := by
  rw [node?, node?, write, lookup_replaced, if_neg h]

end FileTree

/-! ## One target -/

/-- What becomes of a text, by the run of the pipeline on it. -/
theorem migrate_eq {p : Pipeline} {t : Text} {m : Migration} (hm : p.run t = .ok m) :
    migrate p t = .ok (if t.isMigrated then .alreadyMigrated
      else if m.text = t then .unchanged else .updated m) := by
  rw [migrate, hm]
  split <;> rfl

namespace Batch

/-- What becomes of the file at a path: the status that is reported, the place that is written, and
the tree that is left. Only a file whose text `migrate` updates is written. -/
inductive Step (cwd : Location) (path : Path) (tree : FileTree) :
    Status → Option Location → FileTree → Prop
  | notFound : tree.readText cwd path = .error .notFound → Step cwd path tree .notFound none tree
  | failed {e : AccessError} : tree.readText cwd path = .error e → e ≠ .notFound →
      Step cwd path tree (.failed (MigrateError.access path e).message) none tree
  | alreadyMigrated {l : Location} {t : Text} : tree.readText cwd path = .ok (l, t) →
      migrate .batch t = .ok .alreadyMigrated → Step cwd path tree .alreadyMigrated none tree
  | unchanged {l : Location} {t : Text} : tree.readText cwd path = .ok (l, t) →
      migrate .batch t = .ok .unchanged → Step cwd path tree .unchanged none tree
  | updated {l : Location} {t : Text} {m : Migration} {next : FileTree} :
      tree.readText cwd path = .ok (l, t) → migrate .batch t = .ok (.updated m) →
      next.node? l = some (.file m.text) → (∀ k, k ≠ l → next.node? k = tree.node? k) →
      Step cwd path tree (.updated m.count) (some l) next

/-- The targets of a batch one after the other, each in the tree that those before it left. -/
inductive Steps (cwd : Location) (root : Path) :
    FileTree → List Path → List FileReport → List Location → FileTree → Prop
  | nil {tree : FileTree} : Steps cwd root tree [] [] [] tree
  | cons {tree next last : FileTree} {target : Path} {targets : List Path} {status : Status}
      {files : List FileReport} {place : Option Location} {written : List Location} :
      Step cwd (root.join target) tree status place next →
      Steps cwd root next targets files written last →
      Steps cwd root tree (target :: targets) (⟨target, status⟩ :: files)
        (place.toList ++ written) last

section
variable {cwd : Location} {root target path : Path} {tree : FileTree} {l : Location} {t : Text}

/-- The tree after a file was processed. -/
def after (tree : FileTree) (p : Processed) : FileTree :=
  match p.written with
  | some (l, t) => tree.write l t
  | none => tree

/-- A text of a batch becomes what `migrate` makes of it. -/
theorem step_processText (h : tree.readText cwd path = .ok (l, t)) : ∃ p,
    processText target l t = .ok p ∧
      Step cwd path tree p.status (p.written.map Prod.fst) (after tree p) := by
  obtain ⟨hnode, cs, rfl⟩ := FileTree.node?_of_readText h
  obtain ⟨m, hm⟩ : ∃ m, Pipeline.batch.run (.ofChars cs) = .ok m :=
    runPasses_ok (Text.wellFormed_ofChars cs) _
  have hout := migrate_eq hm
  rw [processText, hm]
  by_cases hg : (Text.ofChars cs).isMigrated = true
  · rw [if_pos hg] at hout ⊢
    exact ⟨_, rfl, .alreadyMigrated h hout⟩
  rw [if_neg hg] at hout ⊢
  by_cases htext : m.text = .ofChars cs
  · rw [if_pos htext] at hout
    refine ⟨_, if_pos htext, .unchanged h hout⟩
  · rw [if_neg htext] at hout
    refine ⟨_, if_neg htext, .updated h hout (FileTree.node?_write_self hnode) fun k hk => ?_⟩
    exact FileTree.node?_write_of_ne hk

/-- A file that cannot be read is reported, and nothing else is done. -/
theorem step_processError {e : AccessError} (h : tree.readText cwd path = .error e) :
    Step cwd path tree (processError target (.ofAccess path e)).status none tree := by
  have hfail (hne : e ≠ .notFound) :
      Step cwd path tree (.failed (MigrateError.access path e).message) none tree := .failed h hne
  cases e with
  | notFound => exact .notFound h
  | notDirectory => exact hfail nofun
  | isDirectory => exact hfail nofun
  | nameTooLong => exact hfail nofun
  | nulByte => exact hfail nofun
  | notText => exact hfail nofun

theorem written_processError (e : MigrateError) : (processError target e).written = none := by
  rw [processError]
  split <;> rfl

/-- **What is done with a target is a step.** -/
theorem step_process (tree : FileTree) (cwd : Location) (root target : Path) : ∃ p,
    process tree cwd root target = .ok p ∧
      Step cwd (root.join target) tree p.status (p.written.map Prod.fst) (after tree p) := by
  rw [process]
  cases h : tree.readText cwd (root.join target) with
  | ok r => exact step_processText h
  | error e =>
    refine ⟨_, rfl, ?_⟩
    rw [after, written_processError]
    exact step_processError h

/-- A target processed before others. -/
theorem processAll_cons {targets : List Path} {p : Processed} {r : BatchRun}
    (hp : process tree cwd root target = .ok p)
    (hr : processAll cwd root (after tree p) targets = .ok r) :
    processAll cwd root tree (target :: targets) = .ok ⟨r.tree, ⟨target, p.status⟩ :: r.files,
      p.log ++ r.log, p.traced ++ r.traced, p.written.toList.map Prod.fst ++ r.written⟩ := by
  rw [processAll, hp]
  show (processAll cwd root (after tree p) targets >>= fun rest => _) = _
  rw [hr]
  rfl

/-- **What is done with all targets is one step after the other.** -/
theorem steps_processAll (tree : FileTree) (cwd : Location) (root : Path) (targets : List Path) :
    ∃ r, processAll cwd root tree targets = .ok r ∧
      Steps cwd root tree targets r.files r.written r.tree := by
  induction targets generalizing tree with
  | nil => exact ⟨_, rfl, .nil⟩
  | cons target targets ih =>
    obtain ⟨p, hp, hstep⟩ := step_process tree cwd root target
    obtain ⟨r, hr, hsteps⟩ := ih (after tree p)
    refine ⟨_, processAll_cons hp hr, ?_⟩
    have hplace : p.written.toList.map Prod.fst = (p.written.map Prod.fst).toList := by
      cases p.written <;> rfl
    rw [hplace]
    exact .cons hstep hsteps

/-- A batch is what is done with its targets, and a message. -/
theorem run_eq {b : Batch} {r : BatchRun} (h : processAll cwd b.root tree b.targets = .ok r) :
    b.run tree cwd = .ok { r with log := r.log ++
      [⟨.debug, "Batch finished: " ++ r.report.summary.text⟩] } := by
  rw [run, h]
  rfl

/-- A batch reports on its targets in their order. -/
theorem Steps.map_path {targets : List Path} {files : List FileReport} {written : List Location}
    {last : FileTree} (h : Steps cwd root tree targets files written last) :
    files.map FileReport.path = targets := by
  induction h with
  | nil => rfl
  | cons _ _ ih => rw [List.map_cons, ih]

end

end Batch

/-! ## Summaries -/

namespace Status

/-- Whether the file was updated. -/
def isUpdated : Status → Bool
  | updated _ => true
  | _ => false

/-- Whether the file could not be read. -/
def isFailed : Status → Bool
  | failed _ => true
  | _ => false

end Status

namespace Report

/-- The number of files with a status that passes a test. -/
def tally (r : Report) (test : Status → Bool) : Nat := r.files.countP fun f => test f.status

theorem tally_cons (f : FileReport) (files : List FileReport) (test : Status → Bool) :
    tally ⟨f :: files⟩ test = tally ⟨files⟩ test + if test f.status then 1 else 0 :=
  List.countP_cons ..

/-- Counting the files one by one adds the number of those with each status. -/
theorem foldl_count (files : List FileReport) (s : Summary) :
    files.foldl (fun s f => s.count f.status) s =
      ⟨s.updated + tally ⟨files⟩ Status.isUpdated, s.unchanged + tally ⟨files⟩ (· == .unchanged),
        s.alreadyMigrated + tally ⟨files⟩ (· == .alreadyMigrated),
        s.notFound + tally ⟨files⟩ (· == .notFound), s.failed + tally ⟨files⟩ Status.isFailed⟩ := by
  induction files generalizing s with
  | nil => rfl
  | cons f files ih =>
    rw [List.foldl_cons, ih]
    obtain ⟨path, status⟩ := f
    simp only [tally_cons]
    cases status <;>
      simp [Summary.count, Status.isUpdated, Status.isFailed, Nat.add_assoc, Nat.add_comm]

theorem summary_eq (r : Report) : r.summary = ⟨r.tally Status.isUpdated, r.tally (· == .unchanged),
    r.tally (· == .alreadyMigrated), r.tally (· == .notFound), r.tally Status.isFailed⟩ := by
  rw [summary, foldl_count]
  simp only [Summary.zero, Nat.zero_add]

/-- Every file is counted once. -/
theorem tally_total (r : Report) : r.tally Status.isUpdated + r.tally (· == .unchanged) +
    r.tally (· == .alreadyMigrated) + r.tally (· == .notFound) + r.tally Status.isFailed =
      r.files.length := by
  obtain ⟨files⟩ := r
  induction files with
  | nil => rfl
  | cons f files ih =>
    obtain ⟨path, status⟩ := f
    simp only [tally_cons, List.length_cons] at ih ⊢
    rw [← ih]
    cases status <;> simp [Status.isUpdated, Status.isFailed] <;> omega

end Report

/-- **A batch goes its targets step by step.** For every tree and all targets, some of them listed
more than once: a batch never breaks off, it makes of each target what `Batch.Step` says in the tree
that the targets before it left, it reports on the targets in their order, and its summary counts
the files with each status, which together are as many as there are targets. -/
theorem Batch.run_steps (b : Batch) (tree : FileTree) (cwd : Location) : ∃ r,
    b.run tree cwd = .ok r ∧ Batch.Steps cwd b.root tree b.targets r.files r.written r.tree ∧
      r.files.map FileReport.path = b.targets ∧
      r.report.summary = ⟨r.report.tally Status.isUpdated, r.report.tally (· == .unchanged),
        r.report.tally (· == .alreadyMigrated), r.report.tally (· == .notFound),
        r.report.tally Status.isFailed⟩ ∧
      r.report.summary.updated + r.report.summary.unchanged + r.report.summary.alreadyMigrated +
        r.report.summary.notFound + r.report.summary.failed = b.targets.length := by
  obtain ⟨r, hr, hsteps⟩ := Batch.steps_processAll tree cwd b.root b.targets
  refine ⟨_, Batch.run_eq hr, hsteps, hsteps.map_path, Report.summary_eq _, ?_⟩
  rw [Report.summary_eq]
  refine (Report.tally_total _).trans ?_
  rw [← hsteps.map_path, List.length_map]
  rfl

end ProviderNest
