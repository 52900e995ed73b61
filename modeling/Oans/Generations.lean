import Oans.DuplicateFiles

/-!
# Generations of files across runs

A scan gives each file it lists a generation above the stored watermark; the digest arrives later
from another thread, or in a later run that resumes the file and moves its row into a new
generation. The scan's writes become durable at its commits, and a killed run leaves behind what
was committed last. A dedupe phase offers the rows of its windows to a load and then moves the
watermark.
-/

namespace Oans

open IntervalCut

namespace FilesTable

variable {δ : Type*}

def update (t : FilesTable δ) (id : ℤ) (f : FileRow δ → FileRow δ) (hf : ∀ r, (f r).id = r.id) :
    FilesTable δ where
  rows := t.rows.map fun r => if r.id = id then f r else r
  ids_nodup := by
    have hids : (FileRow.id ∘ fun r : FileRow δ => if r.id = id then f r else r) = FileRow.id := by
      funext r
      simp only [Function.comp_apply]
      split
      · exact hf r
      · rfl
    rw [List.map_map, hids]
    exact t.ids_nodup

theorem mem_update {t : FilesTable δ} {id : ℤ} {f : FileRow δ → FileRow δ}
    {hf : ∀ r, (f r).id = r.id} {r : FileRow δ} : r ∈ (t.update id f hf).rows ↔
      (r ∈ t.rows ∧ r.id ≠ id) ∨ ∃ x ∈ t.rows, x.id = id ∧ r = f x := by
  unfold update
  rw [List.mem_map]
  constructor
  · rintro ⟨x, hx, rfl⟩
    by_cases hid : x.id = id
    · rw [if_pos hid]
      exact Or.inr ⟨x, hx, hid, rfl⟩
    · rw [if_neg hid]
      exact Or.inl ⟨hx, hid⟩
  · rintro (⟨hr, hid⟩ | ⟨x, hx, hid, rfl⟩)
    · exact ⟨r, hr, if_neg hid⟩
    · exact ⟨x, hx, if_pos hid⟩

def keepIf (t : FilesTable δ) (p : FileRow δ → Bool) : FilesTable δ where
  rows := t.rows.filter p
  ids_nodup := t.ids_nodup.sublist (List.filter_sublist.map _)

def updateDedupeSeq (t : FilesTable δ) (id : ℤ) (seq : ℕ) : FilesTable δ :=
  t.update id (fun r => { r with dedupeSeq := seq }) fun _ => rfl

/-- `dbfile_update_scanned_file`, and what `dbfile_copy_scanned_file` does to the row. -/
def updateScannedFile (t : FilesTable δ) (id : ℤ) (digest : Option δ) (flags nrExtents : ℕ) :
    FilesTable δ :=
  t.update id (fun r => { r with digest := digest, flags := some flags, nrExtents := nrExtents })
    fun _ => rfl

theorem mem_updateDedupeSeq {t : FilesTable δ} {id : ℤ} {seq : ℕ} {r : FileRow δ} :
    r ∈ (t.updateDedupeSeq id seq).rows ↔ (r ∈ t.rows ∧ r.id ≠ id) ∨
      ∃ x ∈ t.rows, x.id = id ∧ r = { x with dedupeSeq := seq } := mem_update

theorem mem_updateScannedFile {t : FilesTable δ} {id : ℤ} {digest : Option δ}
    {flags nrExtents : ℕ} {r : FileRow δ} :
    r ∈ (t.updateScannedFile id digest flags nrExtents).rows ↔ (r ∈ t.rows ∧ r.id ≠ id) ∨
      ∃ x ∈ t.rows, x.id = id ∧
        r = { x with digest := digest, flags := some flags, nrExtents := nrExtents } := mem_update

end FilesTable

structure HashfileRows (δ : Type*) where
  table : FilesTable δ
  /-- the files of `scan_checkpoints` -/
  checkpoints : List ℤ
  /-- the stored watermark, `dedupe_sequence` -/
  dedupeSeq : ℕ
  /-- the files whose present digest has been offered to a load -/
  offered : List ℤ

structure ScanRun where
  /-- the watermark the run started with -/
  dedupeSeq : ℕ
  /-- the statics of `scan_next_seq` -/
  seq : ℕ
  counter : ℕ
  /-- the files waiting for their hashes -/
  queue : List ℤ

def scanNextSeq (batchSize : ℕ) (run : ScanRun) : ℕ × ScanRun :=
  let seq := if run.seq = 0 then run.dedupeSeq + 1 else run.seq
  if batchSize ≠ 0 then
    if batchSize ≤ run.counter + 1 then (seq + 1, { run with seq := seq + 1, counter := 0 })
    else (seq, { run with seq := seq, counter := run.counter + 1 })
  else (seq, { run with seq := seq })

structure HashfileWorld (δ : Type*) where
  durable : HashfileRows δ
  /-- what the scan's writer sees -/
  view : HashfileRows δ
  scan : Option ScanRun

inductive ScanEvent
  /-- a file was resumed; its row was moved into this run's generation or not -/
  | resume (id : ℤ) (moved : Bool)
  | store (id : ℤ)
  | other
  deriving DecidableEq, Repr

variable {δ : Type*}

/-- One step of the runs on a hashfile, `batchSize` being `--batchsize`. A write unit that fails
without losing the batch is a step that does not happen, but for the generation of a resumed file,
which `__scan_file` goes on without. -/
inductive HashfileStep (batchSize : ℕ) :
    HashfileWorld δ → ScanEvent → HashfileWorld δ → Prop
  /-- a run starts by pruning the rows without digest or checkpoint -/
  | start (u : HashfileWorld δ) (h : u.scan = none) (rows : HashfileRows δ)
      (hrows : rows = { u.durable with
        table := u.durable.table.keepIf fun r =>
          r.digest.isSome || decide (r.id ∈ u.durable.checkpoints) }) :
      HashfileStep batchSize u .other ⟨rows, rows, some ⟨rows.dedupeSeq, 0, 0, []⟩⟩
  /-- `store_file_row` replaces whatever rows the new one is in conflict with -/
  | storeRow (u : HashfileWorld δ) (run : ScanRun) (h : u.scan = some run) (row : FileRow δ)
      (gone : ℤ → Bool) (table : FilesTable δ)
      (htable : table.rows = row :: u.view.table.rows.filter fun r => !gone r.id)
      (hseq : row.dedupeSeq = (scanNextSeq batchSize run).1) (hdigest : row.digest = none) :
      HashfileStep batchSize u .other ⟨u.durable, { u.view with table := table },
        some { (scanNextSeq batchSize run).2 with queue := run.queue ++ [row.id] }⟩
  /-- a file as an interrupted run left it, by what the listing's own connection reads -/
  | resume (u : HashfileWorld δ) (run : ScanRun) (h : u.scan = some run) (row : FileRow δ)
      (hrow : row ∈ u.durable.table.rows) (hdigest : row.digest = none)
      (hcp : row.id ∈ u.durable.checkpoints) (moved : Bool) :
      HashfileStep batchSize u (.resume row.id moved) ⟨u.durable,
        { u.view with table := if moved then
            u.view.table.updateDedupeSeq row.id (scanNextSeq batchSize run).1 else u.view.table },
        some { (scanNextSeq batchSize run).2 with queue := run.queue ++ [row.id] }⟩
  /-- the file is not queued; an unusable checkpoint of it is dropped -/
  | listNothing (u : HashfileWorld δ) (run : ScanRun) (h : u.scan = some run) (id : ℤ) :
      HashfileStep batchSize u .other ⟨u.durable,
        { u.view with checkpoints := u.view.checkpoints.filter (· ≠ id) },
        some (scanNextSeq batchSize run).2⟩
  | writeCheckpoint (u : HashfileWorld δ) (run : ScanRun) (h : u.scan = some run) (id : ℤ)
      (hid : id ∈ run.queue) :
      HashfileStep batchSize u .other
        ⟨u.durable, { u.view with checkpoints := id :: u.view.checkpoints }, u.scan⟩
  /-- the digest arrives: hashed from the start, from a checkpoint, or copied from a donor -/
  | store (u : HashfileWorld δ) (run : ScanRun) (h : u.scan = some run) (id : ℤ)
      (hid : id ∈ run.queue) (digest : δ) (flags nrExtents : ℕ) :
      HashfileStep batchSize u (.store id) ⟨u.durable,
        { u.view with
          table := u.view.table.updateScannedFile id (some digest) flags nrExtents
          checkpoints := u.view.checkpoints.filter (· ≠ id)
          offered := u.view.offered.filter (· ≠ id) },
        some { run with queue := run.queue.filter (· ≠ id) }⟩
  | dropFile (u : HashfileWorld δ) (run : ScanRun) (h : u.scan = some run) (id : ℤ) :
      HashfileStep batchSize u .other
        ⟨u.durable, u.view, some { run with queue := run.queue.filter (· ≠ id) }⟩
  | commit (u : HashfileWorld δ) : HashfileStep batchSize u .other { u with durable := u.view }
  | kill (u : HashfileWorld δ) : HashfileStep batchSize u .other ⟨u.durable, u.durable, none⟩
  /-- the scan is over, complete or interrupted -/
  | endScan (u : HashfileWorld δ) : HashfileStep batchSize u .other ⟨u.view, u.view, none⟩
  /-- a dedupe phase drops the rows of deleted files, loads the first `n` of its windows and gets
  the watermark of the first `m` of them stored -/
  | phase (u : HashfileWorld δ) (h : u.scan = none) (ws : List (Window ℕ)) (m n : ℕ) (hmn : m ≤ n)
      (hcut : IsCut u.durable.dedupeSeq ws u.durable.table.getMaxDedupeSeq) (gone : ℤ → Bool)
      (rows : HashfileRows δ)
      (hrows : rows = { u.durable with
        table := u.durable.table.keepIf fun r => !gone r.id
        dedupeSeq := endOf u.durable.dedupeSeq (ws.take m)
        offered := u.durable.offered ++ (u.durable.table.rows.filter fun r =>
          r.digest.isSome && (ws.take n).any fun w => r.inWindow w.lo w.hi).map FileRow.id }) :
      HashfileStep batchSize u .other ⟨rows, rows, none⟩

namespace HashfileWorld

/-- Every hashed file is above the watermark or has been offered to a load. -/
def Visible (c : HashfileRows δ) : Prop :=
  ∀ r ∈ c.table.rows, r.digest.isSome = true → c.dedupeSeq < r.dedupeSeq ∨ r.id ∈ c.offered

def AboveWatermark (c : HashfileRows δ) (id : ℤ) : Prop :=
  ∀ r ∈ c.table.rows, r.id = id → c.dedupeSeq < r.dedupeSeq

/-- The files of a scan are above the watermark, and so is every generation it still gives out. -/
structure ScanInv (c : HashfileRows δ) (run : ScanRun) : Prop where
  dedupeSeq : run.dedupeSeq = c.dedupeSeq
  seq : run.seq = 0 ∨ run.dedupeSeq < run.seq
  queue : ∀ id ∈ run.queue, AboveWatermark c id

structure Inv (u : HashfileWorld δ) : Prop where
  durable : Visible u.durable
  view : Visible u.view
  dedupeSeq : u.view.dedupeSeq = u.durable.dedupeSeq
  scan : ∀ run, u.scan = some run → ScanInv u.view run

/-- A resumed file whose row was not moved is above the watermark where it is. -/
def Harmless (u : HashfileWorld δ) (e : ScanEvent) : Prop :=
  ∀ id, e = .resume id false → AboveWatermark u.view id

theorem scanNextSeq_spec (batchSize : ℕ) (run : ScanRun)
    (h : run.seq = 0 ∨ run.dedupeSeq < run.seq) :
    run.dedupeSeq < (scanNextSeq batchSize run).1 ∧
      (scanNextSeq batchSize run).2.dedupeSeq = run.dedupeSeq ∧
      (scanNextSeq batchSize run).2.seq = (scanNextSeq batchSize run).1 ∧
      (scanNextSeq batchSize run).2.queue = run.queue := by
  unfold scanNextSeq
  dsimp only
  split_ifs <;> refine ⟨?_, rfl, rfl, rfl⟩ <;> dsimp only <;> omega

/-- The scan goes on with the next generation and perhaps one more file. -/
theorem ScanInv.next {c c' : HashfileRows δ} {run : ScanRun} (h : ScanInv c run) (batchSize : ℕ)
    (queue : List ℤ) (hseq : c'.dedupeSeq = c.dedupeSeq)
    (hqueue : ∀ id ∈ queue, AboveWatermark c' id) :
    ScanInv c' { (scanNextSeq batchSize run).2 with queue := queue } := by
  obtain ⟨habove, hsame, hnext, -⟩ := scanNextSeq_spec batchSize run h.seq
  exact ⟨by rw [hsame, h.dedupeSeq, hseq], Or.inr (by rw [hsame, hnext]; exact habove), hqueue⟩

variable {u v : HashfileWorld δ} {e : ScanEvent} {batchSize : ℕ}

theorem Visible.of_sub {c c' : HashfileRows δ} (h : Visible c) (hseq : c'.dedupeSeq = c.dedupeSeq)
    (hoffered : c'.offered = c.offered)
    (hrows : ∀ r ∈ c'.table.rows, r.digest.isSome = true → r ∈ c.table.rows) : Visible c' := by
  intro r hr hd
  rw [hseq, hoffered]
  exact h r (hrows r hr hd) hd

/-- A phase offers what it moves the watermark over. -/
theorem Visible.phase {c : HashfileRows δ} (h : Visible c) {ws : List (Window ℕ)} {b m n : ℕ}
    (hmn : m ≤ n) (hcut : IsCut c.dedupeSeq ws b) (gone : ℤ → Bool) :
    Visible { c with
      table := c.table.keepIf fun r => !gone r.id
      dedupeSeq := endOf c.dedupeSeq (ws.take m)
      offered := c.offered ++ (c.table.rows.filter fun r =>
        r.digest.isSome && (ws.take n).any fun w => r.inWindow w.lo w.hi).map FileRow.id } := by
  intro r hr hd
  have hrow : r ∈ c.table.rows := (List.mem_filter.mp hr).1
  dsimp only
  by_cases hle : r.dedupeSeq ≤ endOf c.dedupeSeq (ws.take m)
  · right
    rcases h r hrow hd with habove | hoff
    · obtain ⟨w, hw, hc⟩ := (hcut.take m).exists_contains habove hle
      have hwn : w ∈ ws.take n := (List.take_prefix_take_left (l := ws) hmn).subset hw
      refine List.mem_append_right _ (List.mem_map_of_mem (List.mem_filter.mpr ⟨hrow, ?_⟩))
      rw [hd, Bool.true_and]
      exact List.any_eq_true.mpr ⟨w, hwn, FileRow.inWindow_iff.mpr hc⟩
    · exact List.mem_append_left _ hoff
  · exact Or.inl (not_le.mp hle)

theorem Inv.step (h : Inv u) (hstep : HashfileStep batchSize u e v) (hok : Harmless u e) :
    Inv v := by
  obtain ⟨durable, view, dedupeSeq, scan⟩ := h
  cases hstep with
  | start hnone rows hrows =>
    have hvis : Visible rows := by
      subst hrows
      exact durable.of_sub rfl rfl fun r hr _ => (List.mem_filter.mp hr).1
    exact ⟨hvis, hvis, rfl, fun run hrun => by
      obtain rfl := Option.some.inj hrun
      exact ⟨rfl, Or.inl rfl, by simp⟩⟩
  | storeRow run hrun row gone table htable hseq hdigest =>
    have hs := scan run hrun
    obtain ⟨habove, -⟩ := scanNextSeq_spec batchSize run hs.seq
    have hcases : ∀ r ∈ table.rows, r = row ∨ r ∈ u.view.table.rows := by
      intro r hr
      rw [htable] at hr
      exact (List.mem_cons.mp hr).imp_right fun h => (List.mem_filter.mp h).1
    refine ⟨durable, view.of_sub rfl rfl fun r hr hd => ?_, dedupeSeq, fun run' hrun' => ?_⟩
    · rcases hcases r hr with rfl | hr
      · rw [hdigest] at hd
        cases hd
      · exact hr
    · obtain rfl := Option.some.inj hrun'
      refine hs.next batchSize _ rfl fun id hid r hr hrid => ?_
      have hnew : u.view.dedupeSeq < row.dedupeSeq := by
        rw [hseq, ← hs.dedupeSeq]
        exact habove
      rcases List.mem_append.mp hid with hid | hid
      · rcases hcases r hr with rfl | hr
        · exact hnew
        · exact hs.queue id hid r hr hrid
      · rw [List.mem_singleton.mp hid] at hrid
        rw [table.eq_of_id_eq hr (by simp [htable]) hrid]
        exact hnew
  | resume run hrun row hrow hdigest hcp moved =>
    have hs := scan run hrun
    obtain ⟨habove, -⟩ := scanNextSeq_spec batchSize run hs.seq
    rw [hs.dedupeSeq] at habove
    cases moved with
    | true =>
      refine ⟨durable, fun r hr hd => ?_, dedupeSeq, fun run' hrun' => ?_⟩
      · rcases FilesTable.mem_updateDedupeSeq.mp hr with ⟨hr, -⟩ | ⟨x, hx, hid, rfl⟩
        · exact view r hr hd
        · exact Or.inl habove
      · obtain rfl := Option.some.inj hrun'
        refine hs.next batchSize _ rfl fun id hid r hr hrid => ?_
        rcases FilesTable.mem_updateDedupeSeq.mp hr with ⟨hr, hne⟩ | ⟨x, hx, hxid, rfl⟩
        · rcases List.mem_append.mp hid with hid | hid
          · exact hs.queue id hid r hr hrid
          · exact absurd (hrid.trans (List.mem_singleton.mp hid)) hne
        · exact habove
    | false =>
      -- the row stays in the generation it had
      refine ⟨durable, view, dedupeSeq, fun run' hrun' => ?_⟩
      obtain rfl := Option.some.inj hrun'
      refine hs.next batchSize _ rfl fun id hid => ?_
      rcases List.mem_append.mp hid with hid | hid
      · exact hs.queue id hid
      · rw [List.mem_singleton.mp hid]
        exact hok row.id rfl
  | listNothing run hrun id =>
    have hs := scan run hrun
    refine ⟨durable, view, dedupeSeq, fun run' hrun' => ?_⟩
    obtain rfl := Option.some.inj hrun'
    obtain ⟨-, -, -, hqueue⟩ := scanNextSeq_spec batchSize run hs.seq
    have hnext : ScanInv { u.view with checkpoints := u.view.checkpoints.filter (· ≠ id) }
        { (scanNextSeq batchSize run).2 with queue := run.queue } :=
      hs.next batchSize run.queue rfl hs.queue
    rw [← hqueue] at hnext
    exact hnext
  | writeCheckpoint run hrun id hid =>
    exact ⟨durable, view, dedupeSeq, fun run' hrun' => ⟨(scan run' hrun').1, (scan run' hrun').2,
      (scan run' hrun').3⟩⟩
  | store run hrun id hid digest flags nrExtents =>
    have hs := scan run hrun
    refine ⟨durable, fun r hr hd => ?_, dedupeSeq, fun run' hrun' => ?_⟩
    · rcases FilesTable.mem_updateScannedFile.mp hr with ⟨hr, hne⟩ | ⟨x, hx, hxid, rfl⟩
      · exact (view r hr hd).imp_right fun hoff => List.mem_filter.mpr ⟨hoff, by simpa using hne⟩
      · exact Or.inl (hs.queue id hid x hx hxid)
    · obtain rfl := Option.some.inj hrun'
      refine ⟨hs.dedupeSeq, hs.seq, fun y hy r hr hrid => ?_⟩
      have hyq := (List.mem_filter.mp hy).1
      rcases FilesTable.mem_updateScannedFile.mp hr with ⟨hr, -⟩ | ⟨x, hx, hxid, rfl⟩
      · exact hs.queue y hyq r hr hrid
      · exact hs.queue y hyq x hx hrid
  | dropFile run hrun id =>
    have hs := scan run hrun
    refine ⟨durable, view, dedupeSeq, fun run' hrun' => ?_⟩
    obtain rfl := Option.some.inj hrun'
    exact ⟨hs.dedupeSeq, hs.seq, fun x hx => hs.queue x (List.mem_filter.mp hx).1⟩
  | commit => exact ⟨view, view, rfl, scan⟩
  | kill => exact ⟨durable, durable, rfl, fun run hrun => by cases hrun⟩
  | endScan => exact ⟨view, view, rfl, fun run hrun => by cases hrun⟩
  | phase hnone ws m n hmn hcut gone rows hrows =>
    have hvis : Visible rows := by
      subst hrows
      exact durable.phase hmn hcut gone
    exact ⟨hvis, hvis, rfl, fun run hrun => by cases hrun⟩

def empty : HashfileRows δ := ⟨⟨[], List.nodup_nil⟩, [], 0, []⟩

inductive Reachable (batchSize : ℕ) (ok : HashfileWorld δ → ScanEvent → Prop) :
    HashfileWorld δ → Prop
  | new : Reachable batchSize ok ⟨empty, empty, none⟩
  | step (u v : HashfileWorld δ) (e : ScanEvent) (hu : Reachable batchSize ok u)
      (hstep : HashfileStep batchSize u e v) (hok : ok u e) : Reachable batchSize ok v

theorem Reachable.inv (h : Reachable batchSize Harmless u) : Inv u := by
  induction h with
  | new =>
    have hvis : Visible (empty : HashfileRows δ) := by
      intro r hr
      simp [empty] at hr
    exact ⟨hvis, hvis, rfl, fun run hrun => by cases hrun⟩
  | step u v e _ hstep hok ih => exact ih.step hstep hok

theorem exists_window {c : HashfileRows δ} {r : FileRow δ} (hr : r ∈ c.table.rows)
    (habove : c.dedupeSeq < r.dedupeSeq) {ws : List (Window ℕ)}
    (hcut : IsCut c.dedupeSeq ws c.table.getMaxDedupeSeq) : ∃ w ∈ ws, w.Contains r.dedupeSeq :=
  hcut.exists_contains habove (c.table.dedupeSeq_le_max hr)

/-- In every history in which no failed update leaves a resumed row at or below the watermark, a
digest is stored only in a row above the watermark, which the windows of the next phase contain,
and the watermark passes only hashed rows that were offered to a load. And a resumed row left at
or below the watermark is hidden once its digest is stored. -/
theorem hashed_files_visible (batchSize : ℕ) :
    (∀ u v : HashfileWorld δ, ∀ id, Reachable batchSize Harmless u →
      HashfileStep batchSize u (.store id) v → ∀ r ∈ v.view.table.rows, r.id = id →
        v.view.dedupeSeq < r.dedupeSeq ∧ ∀ ws,
          IsCut v.view.dedupeSeq ws v.view.table.getMaxDedupeSeq →
            ∃ w ∈ ws, w.Contains r.dedupeSeq) ∧
    (∀ u : HashfileWorld δ, Reachable batchSize Harmless u → Visible u.durable ∧ Visible u.view) ∧
    (∀ u v w : HashfileWorld δ, ∀ id, HashfileStep batchSize u (.resume id false) v →
      ¬Harmless u (.resume id false) → HashfileStep batchSize v (.store id) w →
        ∃ r ∈ w.view.table.rows, r.id = id ∧ r.digest.isSome = true ∧
          r.dedupeSeq ≤ w.view.dedupeSeq ∧ r.id ∉ w.view.offered) := by
  refine ⟨fun u v id hu hstep r hr hid => ?_, fun u hu => ⟨hu.inv.durable, hu.inv.view⟩,
    fun u v w id hresume hharm hstore => ?_⟩
  · have habove : v.view.dedupeSeq < r.dedupeSeq := by
      cases hstep with
      | store run hrun _ hq digest flags nrExtents =>
        rcases FilesTable.mem_updateScannedFile.mp hr with ⟨-, hne⟩ | ⟨x, hx, hxid, rfl⟩
        · exact absurd hid hne
        · exact (hu.inv.scan run hrun).queue id hq x hx hxid
    exact ⟨habove, fun ws hcut => exists_window hr habove hcut⟩
  · have hrow : ∃ x ∈ u.view.table.rows, x.id = id ∧ x.dedupeSeq ≤ u.view.dedupeSeq := by
      unfold Harmless AboveWatermark at hharm
      push Not at hharm
      obtain ⟨id', he, x, hx, hxid, hle⟩ := hharm
      obtain rfl : id = id' := by cases he; rfl
      exact ⟨x, hx, hxid, hle⟩
    obtain ⟨x, hx, hxid, hle⟩ := hrow
    have hview : v.view.table = u.view.table ∧ v.view.dedupeSeq = u.view.dedupeSeq := by
      cases hresume
      exact ⟨rfl, rfl⟩
    cases hstore with
    | store run hrun _ hq digest flags nrExtents =>
      refine ⟨{ x with digest := some digest, flags := some flags, nrExtents := nrExtents },
        FilesTable.mem_updateScannedFile.mpr (Or.inr ⟨x, hview.1 ▸ hx, hxid, rfl⟩), hxid, rfl, ?_, ?_⟩
      · exact hle.trans hview.2.ge
      · simp [hxid]

def rowX : FileRow ℕ := ⟨1, "x", 10, 1, none, none, 0⟩

def rowY : FileRow ℕ := ⟨2, "y", 10, 1, none, none, 0⟩

/-- Run 1 stops with `x` half hashed, run 2 hashes `y` and dedupes generation 1, and run 3 resumes
`x` while the update of its generation fails. -/
theorem failedMove_hides_resumed_file :
    ∃ u v : HashfileWorld ℕ, Reachable 1024 (fun _ _ => True) u ∧
      HashfileStep 1024 u (.store 1) v ∧ ∃ r ∈ v.view.table.rows, r.id = 1 ∧
        r.digest.isSome = true ∧ r.dedupeSeq ≤ v.view.dedupeSeq := by
  have h : Reachable 1024 (fun _ _ => True) (⟨empty, empty, none⟩ : HashfileWorld ℕ) := .new
  have h := h.step _ _ .other (.start _ rfl _ rfl) trivial
  have h := h.step _ _ .other (.storeRow _ _ rfl rowX (fun _ => false) ⟨[rowX], by decide⟩ rfl rfl
    rfl) trivial
  have h := h.step _ _ .other (.writeCheckpoint _ _ rfl 1 (by decide)) trivial
  have h := h.step _ _ .other (.endScan _) trivial
  have h := h.step _ _ .other (.start _ rfl _ rfl) trivial
  have h := h.step _ _ .other (.storeRow _ _ rfl rowY (fun _ => false) ⟨[rowY, rowX], by decide⟩ rfl
    rfl rfl) trivial
  have h := h.step _ _ (.store 2) (.store _ _ rfl 2 (by decide) 8 0 1) trivial
  have h := h.step _ _ .other (.endScan _) trivial
  have h := h.step _ _ .other (.phase _ rfl [⟨0, 1⟩] 1 1 le_rfl (by decide) (fun _ => false) _ rfl)
    trivial
  have h := h.step _ _ .other (.start _ rfl _ rfl) trivial
  have h := h.step _ _ (.resume 1 false) (.resume _ _ rfl rowX (by decide) rfl (by decide) false)
    trivial
  exact ⟨_, _, h, .store _ _ rfl 1 (by decide) 7 0 1,
    ⟨1, "x", 10, 1, some 7, some 0, 1⟩, by decide, rfl, rfl, by decide⟩

/-- The same three runs where the update succeeds: `x` is hashed in the generation of the run that
resumed it, above the watermark that `y` is at. -/
theorem hashed_files_visible_resumed :
    ∃ v : HashfileWorld ℕ, Reachable 1024 Harmless v ∧ v.view.dedupeSeq = 1 ∧
      (∃ r ∈ v.view.table.rows, r.id = 1 ∧ r.digest = some 7 ∧ v.view.dedupeSeq < r.dedupeSeq) ∧
      ∃ r ∈ v.view.table.rows, r.id = 2 ∧ r.digest = some 8 ∧ r.id ∈ v.view.offered := by
  have hok : ∀ (u : HashfileWorld ℕ) (e : ScanEvent), (∀ id, e ≠ .resume id false) → Harmless u e :=
    fun u e he id heq => absurd heq (he id)
  have h : Reachable 1024 Harmless (⟨empty, empty, none⟩ : HashfileWorld ℕ) := .new
  have h := h.step _ _ .other (.start _ rfl _ rfl) (hok _ _ (by simp))
  have h := h.step _ _ .other (.storeRow _ _ rfl rowX (fun _ => false) ⟨[rowX], by decide⟩ rfl rfl
    rfl) (hok _ _ (by simp))
  have h := h.step _ _ .other (.writeCheckpoint _ _ rfl 1 (by decide)) (hok _ _ (by simp))
  have h := h.step _ _ .other (.endScan _) (hok _ _ (by simp))
  have h := h.step _ _ .other (.start _ rfl _ rfl) (hok _ _ (by simp))
  have h := h.step _ _ .other (.storeRow _ _ rfl rowY (fun _ => false) ⟨[rowY, rowX], by decide⟩ rfl
    rfl rfl) (hok _ _ (by simp))
  have h := h.step _ _ (.store 2) (.store _ _ rfl 2 (by decide) 8 0 1) (hok _ _ (by simp))
  have h := h.step _ _ .other (.endScan _) (hok _ _ (by simp))
  have h := h.step _ _ .other (.phase _ rfl [⟨0, 1⟩] 1 1 le_rfl (by decide) (fun _ => false) _ rfl)
    (hok _ _ (by simp))
  have h := h.step _ _ .other (.start _ rfl _ rfl) (hok _ _ (by simp))
  have h := h.step _ _ (.resume 1 true) (.resume _ _ rfl rowX (by decide) rfl (by decide) true)
    (hok _ _ (by simp))
  have h' := h.step _ _ (.store 1) (.store _ _ rfl 1 (by decide) 7 0 1) (hok _ _ (by simp))
  refine ⟨_, h', rfl, ⟨⟨1, "x", 10, 2, some 7, some 0, 1⟩, by decide, rfl, rfl, ?_⟩,
    ⟨2, "y", 10, 1, some 8, some 0, 1⟩, by decide, rfl, rfl, by decide⟩
  exact ((hashed_files_visible 1024).1 _ _ 1 h (.store _ _ rfl 1 (by decide) 7 0 1)
    ⟨1, "x", 10, 2, some 7, some 0, 1⟩ (by decide) rfl).1

end HashfileWorld

end Oans
