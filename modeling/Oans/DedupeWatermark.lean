import Oans.DedupePipeline

/-!
# The watermark never passes unfinished work

Four invariants of the pipeline's runs: where each batch is between its begin and its reap, which
window it has, what its counters say about its items, and how far the watermark may be.
-/

namespace Oans

open IntervalCut

theorem WorkerStep.frame {i : Bool} {b b' : DedupeBatch} (h : WorkerStep i b b') :
    b'.window = b.window ∧ b'.resFiles = b.resFiles ∧ b'.resExtents = b.resExtents ∧
      b'.fullyPushed = b.fullyPushed ∧ b'.loadError = b.loadError ∧
      b'.items.map WorkItem.dext = b.items.map WorkItem.dext := by
  cases h with
  | take before after g h => simp [h]
  | finish before after g h => simp [h]
  | skip before after g h => simp [h]

namespace DedupeBatch

/-- `outstanding` counts the unfinished items and those about to be pushed; without `cut_short`
none was skipped. -/
structure Accounted (b : DedupeBatch) (reserved : ℤ) : Prop where
  outstanding : b.outstanding = b.items.countP (fun it => it.state.unfinished) + reserved
  uncut : b.cutShort = false → ∀ it ∈ b.items, it.state ≠ .skipped

theorem Accounted.worker {i : Bool} {b b' : DedupeBatch} {reserved : ℤ} (h : b.Accounted reserved)
    (hstep : WorkerStep i b b') : b'.Accounted reserved := by
  obtain ⟨hout, huncut⟩ := h
  cases hstep with
  | take before after g hitems =>
    rw [hitems] at hout huncut
    refine ⟨?_, fun hcut it hit => ?_⟩
    · rw [hout]
      cases i <;> simp [List.countP_append, ItemState.unfinished]
    · rcases List.mem_append.mp hit with hit | hit
      · exact huncut hcut it (by simp [hit])
      · rcases List.mem_cons.mp hit with rfl | hit
        · cases i <;> simp
        · exact huncut hcut it (by simp [hit])
  | finish before after g hitems =>
    rw [hitems] at hout huncut
    refine ⟨?_, fun hcut it hit => ?_⟩
    · simp only [List.countP_append, List.countP_cons, ItemState.unfinished] at hout ⊢
      push_cast at hout ⊢
      simp at hout ⊢
      omega
    · rcases List.mem_append.mp hit with hit | hit
      · exact huncut hcut it (by simp [hit])
      · rcases List.mem_cons.mp hit with rfl | hit
        · simp
        · exact huncut hcut it (by simp [hit])
  | skip before after g hitems =>
    rw [hitems] at hout
    refine ⟨?_, by simp⟩
    simp only [List.countP_append, List.countP_cons, ItemState.unfinished] at hout ⊢
    push_cast at hout ⊢
    simp at hout ⊢
    omega

/-- Once nothing is outstanding no worker touches the batch. -/
theorem Accounted.not_worker {i : Bool} {b b' : DedupeBatch} (h : b.Accounted 0)
    (hzero : b.outstanding = 0) : ¬WorkerStep i b b' := by
  have hnone : ∀ it ∈ b.items, it.state.unfinished = false := by
    have hcount : b.items.countP (fun it => it.state.unfinished) = 0 := by
      have := h.outstanding
      omega
    simpa using List.countP_eq_zero.mp hcount
  intro hstep
  cases hstep with
  | take before after g hitems => simpa [ItemState.unfinished] using hnone ⟨g, .queued⟩ (by simp [hitems])
  | finish before after g hitems =>
    simpa [ItemState.unfinished] using hnone ⟨g, .running⟩ (by simp [hitems])
  | skip before after g hitems =>
    simpa [ItemState.unfinished] using hnone ⟨g, .skipping⟩ (by simp [hitems])

/-- Every group the loads found is an item. -/
structure Sealed (b : DedupeBatch) : Prop where
  fullyPushed : b.fullyPushed = true
  accounted : b.Accounted 0
  items : (b.items.map WorkItem.dext).Perm (sufficient (b.resFiles ++ b.resExtents))

theorem Sealed.worker {i : Bool} {b b' : DedupeBatch} (h : b.Sealed) (hstep : WorkerStep i b b') :
    b'.Sealed := by
  obtain ⟨-, hfiles, hextents, hpushed, -, hitems⟩ := hstep.frame
  exact ⟨hpushed.trans h.fullyPushed, h.accounted.worker hstep, by
    rw [hitems, hfiles, hextents]
    exact h.items⟩

/-- Loaded without error, pushed as a whole, and every group of two or more run by a worker. -/
structure Done (b : DedupeBatch) : Prop where
  loaded : b.loadError = false
  fullyPushed : b.fullyPushed = true
  pushed : (b.items.map WorkItem.dext).Perm
    ((b.resFiles ++ b.resExtents).filter fun g => 2 ≤ g.deNumDupes)
  ran : ∀ it ∈ b.items, it.state = .ran

theorem Sealed.done {b : DedupeBatch} (h : b.Sealed) (hzero : b.outstanding = 0)
    (hcut : b.cutShort = false) (hload : b.loadError = false) : b.Done := by
  refine ⟨hload, h.fullyPushed, h.items, fun it hit => ?_⟩
  have hcount : b.items.countP (fun it => it.state.unfinished) = 0 := by
    have := h.accounted.outstanding
    omega
  have hfin := List.countP_eq_zero.mp hcount it hit
  have hskip := h.accounted.uncut hcut it hit
  cases hstate : it.state <;> simp_all [ItemState.unfinished]

end DedupeBatch

namespace Stage

def freeing : Stage → List ℕ
  | free b _ => [b]
  | _ => []

/-- Between `dedupe_begin_batch` and `dedupe_seal_batch`. -/
def inBatch : Stage → Bool
  | load _ | loadBlocks | sort _ | push _ _ | reserved _ _ _ | sealBatch => true
  | _ => false

def outside : Stage → Bool
  | loop | reap _ | free _ _ | wait _ | beginBatch _ | ended => true
  | _ => false

/-- The window the producer has taken from its loop and not begun. -/
def nextWindow : Stage → List (Window ℕ)
  | reap (.awaitSlot w) | free _ (.awaitSlot w) | wait (.awaitSlot w)
  | reap (.drain w) | free _ (.drain w) | wait (.drain w) | beginBatch w => [w]
  | _ => []

def slots : Stage → ℕ
  | reap (.drain _) | free _ (.drain _) | wait (.drain _) | beginBatch _
  | load _ | loadBlocks | sort _ | push _ _ | reserved _ _ _ | sealBatch => 1
  | ended => 0
  | _ => DEDUPE_MAX_INFLIGHT

def reservedItems : Stage → ℤ
  | reserved _ _ _ => 1
  | _ => 0

/-- The groups of the tree in hand that are not items yet. -/
def pending (b : DedupeBatch) : Stage → List DupeGroup
  | sort .files => sufficient b.resFiles
  | sort .extents => sufficient b.resExtents
  | push _ rest => rest
  | reserved _ g rest => g :: rest
  | _ => []

def due (b : DedupeBatch) : Stage → List DupeGroup
  | load .files => []
  | sort .files | push .files _ | reserved .files _ _ | load .extents | loadBlocks =>
    sufficient b.resFiles
  | _ => sufficient (b.resFiles ++ b.resExtents)

def beforeExtents : Stage → Bool
  | load _ | sort .files | push .files _ | reserved .files _ _ => true
  | _ => false

end Stage

structure Filling (st : Stage) (b : DedupeBatch) : Prop where
  accounted : b.Accounted st.reservedItems
  pushed : (b.items.map WorkItem.dext ++ st.pending b).Perm (st.due b)
  noExtents : st.beforeExtents = true → b.resExtents = []

theorem Filling.worker {st : Stage} {i : Bool} {b b' : DedupeBatch} (h : Filling st b)
    (hstep : WorkerStep i b b') : Filling st b' := by
  obtain ⟨-, hfiles, hextents, -, -, hitems⟩ := hstep.frame
  refine ⟨h.accounted.worker hstep, ?_, fun hst => by rw [hextents, h.noExtents hst]⟩
  have hpending : st.pending b' = st.pending b := by
    unfold Stage.pending
    split <;> simp [hfiles, hextents]
  have hdue : st.due b' = st.due b := by
    unfold Stage.due
    split <;> simp [hfiles, hextents]
  rw [hitems, hpending, hdue]
  exact h.pushed

/-- Where the batches are: every batch begun is reaped, being freed, in flight or open, and these
follow each other in the order of their generations. -/
structure Ordered (s : PipelineState) : Prop where
  held : s.reaped ++ s.stage.freeing ++ s.inflight ++ s.openBatch.toList = List.range s.begun
  inside : s.stage.inBatch = true → s.openBatch = some s.current
  outside : s.stage.outside = true → s.openBatch = none
  slots : s.inflight.length ≤ s.stage.slots

structure Windowed (ph : DedupePhase) (s : PipelineState) : Prop where
  begun : ∀ i < s.begun, ph.windows[i]? = some (s.batch i).window
  left : ph.windows.drop s.begun = s.stage.nextWindow ++ s.left

structure Counted (s : PipelineState) : Prop where
  closed : ∀ i < s.begun, s.openBatch ≠ some i → (s.batch i).Sealed
  open_ : s.stage.inBatch = true → Filling s.stage (s.batch s.current)
  finished : ∀ i ∈ s.reaped ++ s.stage.freeing, (s.batch i).outstanding = 0

structure Marked (ph : DedupePhase) (s : PipelineState) : Prop where
  thawed : s.watermarkFrozen = false → ∀ i ∈ s.reaped, (s.batch i).cutShort = false
  failed : ∀ i < s.begun, (s.batch i).loadError = true →
    s.loadFailedAny = true ∧ s.loadFailedAt ≤ (s.batch i).window.lo
  below : ∀ i < s.begun, (s.batch i).loadError = true → s.dedupeSeq ≤ (s.batch i).window.lo
  reached : s.dedupeSeq ≤ ph.firstSeq ∨ ∃ i ∈ s.reaped, s.dedupeSeq ≤ (s.batch i).window.hi ∧
    ∀ j ≤ i, (s.batch j).cutShort = false
  bounds : ph.firstSeq ≤ s.stored ∧ s.stored ≤ s.dedupeSeq

structure PipelineInv (ph : DedupePhase) (s : PipelineState) : Prop where
  ordered : Ordered s
  windowed : Windowed ph s
  counted : Counted s
  marked : Marked ph s

variable {ph : DedupePhase} {s s' : PipelineState}

@[simp] theorem advanceSeq_stage (q : ℕ) (synced : Bool) :
    (s.advanceSeq q synced).stage = s.stage := by
  unfold PipelineState.advanceSeq
  dsimp only
  split_ifs <;> rfl

theorem freeBatch_frame (b : ℕ) (synced : Bool) :
    (s.freeBatch b synced).left = s.left ∧ (s.freeBatch b synced).begun = s.begun ∧
      (s.freeBatch b synced).batch = s.batch ∧ (s.freeBatch b synced).openBatch = s.openBatch ∧
      (s.freeBatch b synced).inflight = s.inflight ∧
      (s.freeBatch b synced).reaped = s.reaped ++ [b] ∧
      (s.freeBatch b synced).loadFailedAny = s.loadFailedAny ∧
      (s.freeBatch b synced).loadFailedAt = s.loadFailedAt := by
  unfold PipelineState.freeBatch PipelineState.advanceSeq
  dsimp only
  split_ifs <;> simp

theorem loaded_frame (b : DedupeBatch) (ok : Bool) (next : Stage) :
    (s.loaded b ok next).stage = next ∧ (s.loaded b ok next).left = s.left ∧
      (s.loaded b ok next).begun = s.begun ∧ (s.loaded b ok next).openBatch = s.openBatch ∧
      (s.loaded b ok next).inflight = s.inflight ∧ (s.loaded b ok next).reaped = s.reaped ∧
      (s.loaded b ok next).batch =
        Function.update s.batch s.current { b with loadError := b.loadError || !ok } ∧
      (s.loaded b ok next).watermarkFrozen = s.watermarkFrozen ∧
      (s.loaded b ok next).dedupeSeq = s.dedupeSeq ∧ (s.loaded b ok next).stored = s.stored := by
  unfold PipelineState.loaded PipelineState.loadFailed PipelineState.setBatch
  dsimp only
  split_ifs <;> simp

/-- A control step stays on its side of the batch and takes no slot it has not seen free. -/
theorem Control.frame {st next : Stage} (hc : Control ph s st next)
    (hout : st.outside = true → s.openBatch = none) :
    next.freeing = st.freeing ∧ next.nextWindow = st.nextWindow ∧
      (next.inBatch = true → st.inBatch = true) ∧ (next.outside = true → st.outside = true) ∧
      (s.inflight.length ≤ st.slots → s.inflight.length ≤ next.slots) := by
  cases hc with
  | freeAsserts b k h => exact absurd (hout rfl) h
  | reapSlot w hfront hslot =>
    have hone : s.inflight.length ≤ 1 := Nat.le_of_lt_succ hslot
    split <;> exact ⟨rfl, rfl, by simp [Stage.inBatch], fun _ => rfl, fun _ => hone⟩
  | reapEnded h => exact ⟨rfl, rfl, by simp [Stage.inBatch], fun _ => rfl, by simp [h]⟩
  | pushedFiles =>
    split <;> exact ⟨rfl, rfl, fun _ => rfl, by simp [Stage.outside], id⟩
  | wake k => cases k <;> exact ⟨rfl, rfl, by simp [Stage.inBatch], fun _ => rfl, id⟩
  | pushAsserts t g rest h =>
    exact ⟨rfl, rfl, by simp [Stage.inBatch], by simp [Stage.outside], fun hlen => hlen.trans one_le_two⟩
  | sortFiles | sortExtents | pushedExtents =>
    exact ⟨rfl, rfl, fun _ => rfl, by simp [Stage.outside], id⟩
  | _ => exact ⟨rfl, rfl, by simp [Stage.inBatch], fun _ => rfl, id⟩

theorem Stage.eq_of_inBatch {st : Stage} (h : st.inBatch = true) :
    st.freeing = [] ∧ st.outside = false ∧ st.slots = 1 ∧ st.nextWindow = [] := by
  cases st <;> simp_all [Stage.inBatch, Stage.freeing, Stage.outside, Stage.slots, Stage.nextWindow]

theorem Ordered.loaded (h : Ordered s) (hin : s.stage.inBatch = true) (b : DedupeBatch) (ok : Bool)
    {next : Stage} (hnext : next.inBatch = true) : Ordered (s.loaded b ok next) := by
  obtain ⟨hstage, -, hbegun, hopen, hinflight, hreaped, -⟩ := loaded_frame (s := s) b ok next
  obtain ⟨hfree, -, hslots, -⟩ := Stage.eq_of_inBatch hin
  obtain ⟨hfree', hout', hslots', -⟩ := Stage.eq_of_inBatch hnext
  refine ⟨?_, fun _ => ?_, fun hout => ?_, ?_⟩
  · rw [hreaped, hstage, hinflight, hopen, hbegun, hfree', ← h.held, hfree]
  · rw [hopen, h.inside hin, PipelineState.current, PipelineState.current, hbegun]
  · rw [hstage, hout'] at hout
    cases hout
  · rw [hinflight, hstage, hslots', ← hslots]
    exact h.slots

theorem Ordered.step (h : Ordered s) (hstep : PipelineStep ph s s') : Ordered s' := by
  have hord := h
  obtain ⟨held, inside, outside, slots⟩ := h
  cases hstep with
  | signal => exact ⟨held, inside, outside, slots⟩
  | worker i b hi hb => exact ⟨held, inside, outside, slots⟩
  | control next hc =>
    obtain ⟨hfree, -, hin, hout, hslots⟩ := hc.frame outside
    exact ⟨by rw [← held, ← hfree], fun h => inside (hin h), fun h => outside (hout h), hslots slots⟩
  | nextWindow w ws hst =>
    rw [hst] at held inside outside slots
    exact ⟨held, inside, outside, slots⟩
  | reapFront k b rest hst hfront =>
    rw [hst] at held inside outside slots
    rw [hfront] at held slots
    refine ⟨?_, by simp [Stage.inBatch], fun _ => outside rfl, ?_⟩
    · simpa [Stage.freeing] using held
    · have hlen : rest.length + 1 ≤ Stage.slots (.reap k) := by simpa using slots
      have hslots : (Stage.free b k).slots = (Stage.reap k).slots := by cases k <;> rfl
      dsimp only
      omega
  | free b k synced hst hopen =>
    obtain ⟨-, hbegun, -, hopenBatch, hinflight, hreaped, -, -⟩ := freeBatch_frame (s := s) b synced
    rw [hst] at held inside outside slots
    refine ⟨?_, by simp [Stage.inBatch], fun _ => hopenBatch.trans hopen, ?_⟩
    · dsimp only
      rw [hbegun, hopenBatch, hinflight, hreaped, ← held]
      simp [Stage.freeing]
    · dsimp only
      rw [hinflight]
      cases k <;> exact slots
  | beginBatch w hst =>
    rw [hst] at held inside outside slots
    refine ⟨?_, fun _ => by simp [PipelineState.current], by simp [Stage.outside], slots⟩
    rw [outside rfl] at held
    simp only [Stage.freeing, List.append_nil, Option.toList_none, Option.toList_some,
      PipelineState.setBatch] at held ⊢
    rw [held, List.range_succ]
  | loadFiles found ok hst => exact hord.loaded (by rw [hst]; rfl) _ ok rfl
  | loadExtents found ok hst =>
    refine hord.loaded (by rw [hst]; rfl) _ ok ?_
    split <;> rfl
  | loadBlocks found ok hst => exact hord.loaded (by rw [hst]; rfl) _ ok rfl
  | reserve t g rest hst =>
    rw [hst] at held inside outside slots
    exact ⟨held, inside, outside, slots⟩
  | poolPush t g rest hst =>
    rw [hst] at held inside outside slots
    exact ⟨held, inside, outside, slots⟩
  | sealBatch hst =>
    rw [hst] at held inside outside slots
    have hopen := inside rfl
    refine ⟨?_, by simp [Stage.inBatch], fun _ => rfl, ?_⟩
    · rw [hopen] at held
      simpa [Stage.freeing, PipelineState.setBatch] using held
    · simpa [Stage.slots, DEDUPE_MAX_INFLIGHT] using Nat.succ_le_succ slots

theorem Ordered.begun_pos (h : Ordered s) (hin : s.stage.inBatch = true) :
    0 < s.begun ∧ s.current < s.begun := by
  have hmem : s.current ∈ List.range s.begun := by
    rw [← h.held, h.inside hin]
    simp
  have hlt := List.mem_range.mp hmem
  exact ⟨by omega, hlt⟩

/-- The batches reaped, and those being freed, are the first ones and closed. -/
theorem Ordered.reaped_eq (h : Ordered s) : s.reaped = List.range s.reaped.length := by
  have hprefix : s.reaped <+: List.range s.begun := by
    rw [← h.held, List.append_assoc, List.append_assoc]
    exact List.prefix_append _ _
  have htake := List.prefix_iff_eq_take.mp hprefix
  rw [List.take_range] at htake
  conv_lhs => rw [htake]
  have hle := hprefix.length_le
  rw [List.length_range] at hle
  rw [min_eq_left hle]

theorem Ordered.closed_of_mem (h : Ordered s) {i : ℕ}
    (hi : i ∈ s.reaped ++ s.stage.freeing ++ s.inflight) : i < s.begun ∧ s.openBatch ≠ some i := by
  have hnodup : (s.reaped ++ s.stage.freeing ++ s.inflight ++ s.openBatch.toList).Nodup := by
    rw [h.held]
    exact List.nodup_range
  refine ⟨List.mem_range.mp ?_, fun hopen => ?_⟩
  · rw [← h.held]
    exact List.mem_append_left _ hi
  · exact (List.disjoint_of_nodup_append hnodup) hi (by simp [hopen])

theorem Windowed.step (h : Windowed ph s) (hord : Ordered s) (hstep : PipelineStep ph s s') :
    Windowed ph s' := by
  obtain ⟨begun, left⟩ := h
  -- a batch replaced by one with the same window
  have hset : ∀ i b, b.window = (s.batch i).window → ∀ j < s.begun,
      ph.windows[j]? = some (Function.update s.batch i b j).window := by
    intro i b hb j hj
    by_cases hij : j = i
    · subst hij
      rw [Function.update_self, hb]
      exact begun j hj
    · rw [Function.update_of_ne hij]
      exact begun j hj
  have hloaded : ∀ b ok next, b.window = (s.batch s.current).window → s.stage.inBatch = true →
      next.inBatch = true → Windowed ph (s.loaded b ok next) := by
    intro b ok next hb hin hnext
    obtain ⟨hstage, hleft, hbegun, -, -, -, hbatch, -⟩ := loaded_frame (s := s) b ok next
    refine ⟨?_, ?_⟩
    · rw [hbegun, hbatch]
      exact hset _ _ hb
    · rw [hbegun, hstage, hleft, (Stage.eq_of_inBatch hnext).2.2.2,
        ← (Stage.eq_of_inBatch hin).2.2.2]
      exact left
  cases hstep with
  | signal => exact ⟨begun, left⟩
  | worker i b hi hb => exact ⟨hset i b hb.frame.1, left⟩
  | control next hc => exact ⟨begun, by rw [(hc.frame hord.outside).2.1]; exact left⟩
  | nextWindow w ws hst hleft =>
    rw [hst, hleft] at left
    exact ⟨begun, left⟩
  | reapFront k b rest hst =>
    rw [hst] at left
    exact ⟨begun, by cases k <;> exact left⟩
  | free b k synced hst =>
    obtain ⟨hleft, hbegun, hbatch, -⟩ := freeBatch_frame (s := s) b synced
    rw [hst] at left
    refine ⟨by dsimp only; rw [hbegun, hbatch]; exact begun, ?_⟩
    dsimp only
    rw [hbegun, hleft]
    cases k <;> exact left
  | beginBatch w hst =>
    rw [hst] at left
    have hget : ph.windows[s.begun]? = some w := by
      have := congrArg (fun l => l[0]?) left
      simpa [Stage.nextWindow] using this
    refine ⟨fun i hi => ?_, ?_⟩
    · dsimp only [PipelineState.setBatch] at hi ⊢
      by_cases hlast : i = s.begun
      · rw [hlast, Function.update_self]
        exact hget
      · rw [Function.update_of_ne hlast]
        exact begun i (by omega)
    · have htail := congrArg List.tail left
      simpa [Stage.nextWindow, PipelineState.setBatch] using htail
  | loadFiles found ok hst => exact hloaded _ ok _ rfl (by rw [hst]; rfl) rfl
  | loadExtents found ok hst =>
    refine hloaded _ ok _ rfl (by rw [hst]; rfl) ?_
    split <;> rfl
  | loadBlocks found ok hst => exact hloaded _ ok _ rfl (by rw [hst]; rfl) rfl
  | reserve t g rest hst =>
    rw [hst] at left
    exact ⟨hset _ _ rfl, left⟩
  | poolPush t g rest hst =>
    rw [hst] at left
    exact ⟨hset _ _ rfl, left⟩
  | sealBatch hst =>
    rw [hst] at left
    exact ⟨hset _ _ rfl, left⟩

theorem Filling.congr {st st' : Stage} {b : DedupeBatch} (h : Filling st b)
    (hres : st'.reservedItems = st.reservedItems) (hpend : st'.pending b = st.pending b)
    (hdue : st'.due b = st.due b) (hext : st'.beforeExtents = true → st.beforeExtents = true) :
    Filling st' b :=
  ⟨hres ▸ h.accounted, by rw [hpend, hdue]; exact h.pushed, fun hb => h.noExtents (hext hb)⟩

theorem sufficient_append (xs ys : List DupeGroup) :
    sufficient (xs ++ ys) = sufficient xs ++ sufficient ys := List.filter_append xs ys

theorem Control.filling {st next : Stage} {b : DedupeBatch} (hc : Control ph s st next)
    (hb : b = s.batch s.current) (h : st.inBatch = true → Filling st b)
    (hnext : next.inBatch = true) : Filling next b := by
  subst hb
  cases hc with
  | sortFiles order hperm hsorted =>
    have hf := h rfl
    refine ⟨hf.accounted, ?_, hf.noExtents⟩
    exact (hperm.append_left _).trans hf.pushed
  | sortExtents order hperm hsorted =>
    have hf := h rfl
    refine ⟨hf.accounted, ?_, hf.noExtents⟩
    exact (hperm.append_left _).trans hf.pushed
  | pushedFiles =>
    have hf := h rfl
    split
    · refine ⟨hf.accounted, ?_, by simp [Stage.beforeExtents]⟩
      have hp := hf.pushed
      have hnone := hf.noExtents rfl
      simpa [Stage.pending, Stage.due, hnone] using hp
    · exact hf.congr rfl rfl rfl fun _ => rfl
  | pushedExtents => exact (h rfl).congr rfl rfl rfl (by simp [Stage.beforeExtents])
  | loopDone | loopInterrupted | reapNoSlot | reapDrained | reapNotDrained | reapSealed | reapEnded
    | reapNotEnded | wake | freeAsserts | pushAsserts => simp [Stage.inBatch] at hnext
  | reapSlot w hfront hslot =>
    split at hnext <;> simp [Stage.inBatch] at hnext

theorem Counted.step (h : Counted s) (hord : Ordered s) (hstep : PipelineStep ph s s') :
    Counted s' := by
  obtain ⟨closed, open_, finished⟩ := h
  have hclosed_of : ∀ i ∈ s.reaped ++ s.stage.freeing, (s.batch i).Sealed := fun i hi =>
    have hc := hord.closed_of_mem (List.mem_append_left _ hi)
    closed i hc.1 hc.2
  -- a step that rewrites the open batch keeps every other one
  have hset : ∀ b next, s.stage.inBatch = true → next.inBatch = true → Filling next b →
      ∀ t : PipelineState, t.stage = next → t.begun = s.begun → t.openBatch = s.openBatch →
        t.reaped = s.reaped → t.batch = Function.update s.batch s.current b → Counted t := by
    intro b next hin hnext hb t hst hbegun hopen hreaped hbatch
    have hcur := hord.inside hin
    have hne : ∀ i ∈ s.reaped, i ≠ s.current := fun i hi heq =>
      (hord.closed_of_mem (List.mem_append_left _ (List.mem_append_left _ hi))).2 (heq ▸ hcur)
    refine ⟨fun i hi hiopen => ?_, fun _ => ?_, fun i hi => ?_⟩
    · have hne' : i ≠ s.current := fun heq => hiopen (by rw [hopen, hcur, heq])
      rw [hbatch, Function.update_of_ne hne']
      exact closed i (hbegun ▸ hi) (hopen ▸ hiopen)
    · have hcurrent : t.current = s.current := congrArg (· - 1) hbegun
      rw [hst, hbatch, hcurrent, Function.update_self]
      exact hb
    · rw [hst, (Stage.eq_of_inBatch hnext).1, List.append_nil, hreaped] at hi
      rw [hbatch, Function.update_of_ne (hne i hi)]
      exact finished i (List.mem_append_left _ hi)
  have hloaded : ∀ b ok next, s.stage.inBatch = true → next.inBatch = true →
      Filling next { b with loadError := b.loadError || !ok } → Counted (s.loaded b ok next) := by
    intro b ok next hin hnext hb
    obtain ⟨hstage, -, hbegun, hopen, -, hreaped, hbatch, -⟩ := loaded_frame (s := s) b ok next
    exact hset _ _ hin hnext hb _ hstage hbegun hopen hreaped hbatch
  cases hstep with
  | signal => exact ⟨closed, open_, finished⟩
  | worker i b hi hb =>
    refine ⟨fun j hj hjopen => ?_, fun hin => ?_, fun j hj => ?_⟩
    · dsimp only [PipelineState.setBatch]
      by_cases hij : j = i
      · subst hij
        rw [Function.update_self]
        exact (closed j hj hjopen).worker hb
      · rw [Function.update_of_ne hij]
        exact closed j hj hjopen
    · have hf := open_ hin
      change Filling s.stage (Function.update s.batch i b s.current)
      by_cases hcur : s.current = i
      · rw [hcur, Function.update_self]
        exact (hcur ▸ hf).worker hb
      · rw [Function.update_of_ne hcur]
        exact hf
    · have hzero := finished j hj
      dsimp only [PipelineState.setBatch]
      by_cases hij : j = i
      · subst hij
        exact absurd hb ((hclosed_of j hj).accounted.not_worker hzero)
      · rw [Function.update_of_ne hij]
        exact hzero
  | control next hc =>
    have hfree := (hc.frame hord.outside).1
    exact ⟨closed, fun hin => hc.filling rfl open_ hin, by
      dsimp only
      rw [hfree]
      exact finished⟩
  | nextWindow w ws hst =>
    rw [hst] at finished
    exact ⟨closed, by simp [Stage.inBatch], finished⟩
  | reapFront k b rest hst hfront hzero =>
    rw [hst] at finished
    refine ⟨closed, by simp [Stage.inBatch], fun i hi => ?_⟩
    rcases List.mem_append.mp hi with hi | hi
    · exact finished i (List.mem_append_left _ hi)
    · obtain rfl : i = b := by simpa [Stage.freeing] using hi
      exact hzero
  | free b k synced hst =>
    obtain ⟨-, hbegun, hbatch, hopen, -, hreaped, -⟩ := freeBatch_frame (s := s) b synced
    rw [hst] at finished
    refine ⟨?_, by simp [Stage.inBatch], ?_⟩
    · dsimp only
      rw [hbegun, hopen, hbatch]
      exact closed
    · dsimp only
      rw [hreaped, hbatch]
      simpa [Stage.freeing] using finished
  | beginBatch w hst =>
    have hnone := hord.outside (by rw [hst]; rfl)
    rw [hst] at finished
    have hlt : ∀ i ∈ s.reaped, i ≠ s.begun := fun i hi => ((hord.closed_of_mem
      (List.mem_append_left _ (List.mem_append_left _ hi))).1).ne
    refine ⟨fun i hi hopen => ?_, fun _ => ?_, fun i hi => ?_⟩
    · dsimp only [PipelineState.setBatch] at hi hopen ⊢
      have hne : i ≠ s.begun := fun heq => hopen (by rw [heq])
      rw [Function.update_of_ne hne]
      exact closed i (by omega) (by simp [hnone])
    · dsimp only [PipelineState.setBatch, PipelineState.current]
      rw [Nat.add_sub_cancel, Function.update_self]
      exact ⟨⟨rfl, by simp [DedupeBatch.opened]⟩, List.Perm.refl _, fun _ => rfl⟩
    · have hi' : i ∈ s.reaped := by simpa [Stage.freeing, PipelineState.setBatch] using hi
      dsimp only [PipelineState.setBatch]
      rw [Function.update_of_ne (hlt i hi')]
      exact finished i (List.mem_append_left _ hi')
  | loadFiles found ok hst =>
    have hf := open_ (by rw [hst]; rfl)
    rw [hst] at hf
    refine hloaded _ ok _ (by rw [hst]; rfl) rfl ⟨⟨hf.accounted.1, hf.accounted.2⟩, ?_, hf.noExtents⟩
    have hp := hf.pushed
    simp only [Stage.pending, Stage.due, List.append_nil] at hp ⊢
    simpa using hp.append_right (sufficient found)
  | loadExtents found ok hst =>
    have hf := open_ (by rw [hst]; rfl)
    rw [hst] at hf
    have hp := hf.pushed
    refine hloaded _ ok _ (by rw [hst]; rfl) (by split <;> rfl) ?_
    split
    · exact ⟨⟨hf.accounted.1, hf.accounted.2⟩, hp, by simp [Stage.beforeExtents]⟩
    · refine ⟨⟨hf.accounted.1, hf.accounted.2⟩, ?_, by simp [Stage.beforeExtents]⟩
      simp only [Stage.pending, Stage.due, List.append_nil, sufficient_append] at hp ⊢
      exact hp.append_right _
  | loadBlocks found ok hst =>
    have hf := open_ (by rw [hst]; rfl)
    rw [hst] at hf
    have hp := hf.pushed
    refine hloaded _ ok _ (by rw [hst]; rfl) rfl
      ⟨⟨hf.accounted.1, hf.accounted.2⟩, ?_, by simp [Stage.beforeExtents]⟩
    simp only [Stage.pending, Stage.due, List.append_nil, sufficient_append] at hp ⊢
    exact hp.append_right _
  | reserve t g rest hst =>
    have hf := open_ (by rw [hst]; rfl)
    rw [hst] at hf
    refine hset { s.batch s.current with outstanding := (s.batch s.current).outstanding + 1 } _
      (by rw [hst]; rfl) rfl ⟨⟨?_, hf.accounted.2⟩, ?_, ?_⟩ _ rfl rfl rfl rfl rfl
    · have := hf.accounted.1
      simpa [Stage.reservedItems] using this
    · cases t <;> exact hf.pushed
    · cases t <;> exact hf.noExtents
  | poolPush t g rest hst =>
    have hf := open_ (by rw [hst]; rfl)
    rw [hst] at hf
    refine hset { s.batch s.current with items := (s.batch s.current).items ++ [⟨g, .queued⟩] } _
      (by rw [hst]; rfl) rfl ⟨⟨?_, fun hcut it hit => ?_⟩, ?_, ?_⟩ _ rfl rfl rfl rfl rfl
    · have := hf.accounted.1
      simpa [Stage.reservedItems, ItemState.unfinished] using this
    · rcases List.mem_append.mp hit with hit | hit
      · exact hf.accounted.2 hcut it hit
      · obtain rfl := List.mem_singleton.mp hit
        simp
    · have hp := hf.pushed
      cases t <;> simpa [Stage.pending, Stage.due] using hp
    · cases t <;> exact hf.noExtents
  | sealBatch hst =>
    have hin : s.stage.inBatch = true := by rw [hst]; rfl
    have hf := open_ hin
    have hcur := hord.inside hin
    rw [hst] at hf finished
    have hne : ∀ i ∈ s.reaped, i ≠ s.current := fun i hi heq =>
      (hord.closed_of_mem (List.mem_append_left _ (List.mem_append_left _ hi))).2 (heq ▸ hcur)
    refine ⟨fun i hi _ => ?_, by simp [Stage.inBatch], fun i hi => ?_⟩
    · dsimp only [PipelineState.setBatch] at hi ⊢
      by_cases hic : i = s.current
      · rw [hic, Function.update_self]
        have hp := hf.pushed
        exact ⟨rfl, ⟨hf.accounted.1, hf.accounted.2⟩, by simpa [Stage.pending, Stage.due] using hp⟩
      · rw [Function.update_of_ne hic]
        exact closed i hi (by rw [hcur]; simpa using fun h => hic h.symm)
    · have hi' : i ∈ s.reaped := by simpa [Stage.freeing, PipelineState.setBatch] using hi
      dsimp only [PipelineState.setBatch]
      rw [Function.update_of_ne (hne i hi')]
      exact finished i (List.mem_append_left _ hi')

/-- A step that touches no reaped batch's verdict, no load and not the watermark. -/
theorem Marked.frame {t : PipelineState} (h : Marked ph s) (hord : Ordered s)
    (hbegun : t.begun = s.begun) (hreaped : t.reaped = s.reaped)
    (hfrozen : t.watermarkFrozen = s.watermarkFrozen)
    (hany : t.loadFailedAny = s.loadFailedAny) (hat : t.loadFailedAt = s.loadFailedAt)
    (hseq : t.dedupeSeq = s.dedupeSeq) (hstored : t.stored = s.stored)
    (hcut : ∀ i ∈ s.reaped, (t.batch i).cutShort = (s.batch i).cutShort)
    (hload : ∀ i < s.begun, (t.batch i).window = (s.batch i).window ∧
      (t.batch i).loadError = (s.batch i).loadError) : Marked ph t := by
  obtain ⟨thawed, failed, below, reached, bounds⟩ := h
  refine ⟨fun hf i hi => ?_, fun i hi hl => ?_, fun i hi hl => ?_, ?_, by rw [hstored, hseq]; exact bounds⟩
  · rw [hreaped] at hi
    rw [hcut i hi]
    exact thawed (hfrozen ▸ hf) i hi
  · obtain ⟨hwin, herr⟩ := hload i (hbegun ▸ hi)
    rw [hany, hat, hwin]
    exact failed i (hbegun ▸ hi) (herr ▸ hl)
  · obtain ⟨hwin, herr⟩ := hload i (hbegun ▸ hi)
    rw [hseq, hwin]
    exact below i (hbegun ▸ hi) (herr ▸ hl)
  · rcases reached with hle | ⟨i, hi, hle, huncut⟩
    · exact Or.inl (hseq ▸ hle)
    · have hlt := (hord.closed_of_mem (List.mem_append_left _ (List.mem_append_left _ hi))).1
      refine Or.inr ⟨i, hreaped ▸ hi, ?_, fun j hj => ?_⟩
      · rw [hseq, (hload i hlt).1]
        exact hle
      · have hjr : j ∈ s.reaped := by
          rw [hord.reaped_eq] at hi ⊢
          exact List.mem_range.mpr (hj.trans_lt (List.mem_range.mp hi))
        rw [hcut j hjr]
        exact huncut j hj

theorem Marked.dedupeSeq_le_lo (h : Marked ph s) (hord : Ordered s) (hwin : Windowed ph s) {i : ℕ}
    (hi : i < s.begun) (hnew : i ∉ s.reaped) : s.dedupeSeq ≤ (s.batch i).window.lo := by
  have hget := hwin.begun i hi
  rcases h.reached with hle | ⟨j, hj, hle, -⟩
  · exact hle.trans (ph.cut.lo_ge _ (List.mem_of_getElem? hget))
  · have hlt : j < i := by
      rw [hord.reaped_eq, List.mem_range] at hj hnew
      omega
    have hjb := (hord.closed_of_mem (List.mem_append_left _ (List.mem_append_left _ hj))).1
    exact hle.trans (ph.cut.hi_le_lo (hwin.begun j hjb) hget hlt)

/-- A failed load bounds the watermark by the window it failed in. -/
theorem Marked.loaded (h : Marked ph s) (hord : Ordered s) (hwin : Windowed ph s)
    (hin : s.stage.inBatch = true) {b : DedupeBatch} (ok : Bool) (next : Stage)
    (hb : b.window = (s.batch s.current).window) (herr : b.loadError = (s.batch s.current).loadError) :
    Marked ph (s.loaded b ok next) := by
  have hcur := hord.inside hin
  have hlt := (hord.begun_pos hin).2
  have hne : ∀ i ∈ s.reaped, i ≠ s.current := fun i hi heq =>
    (hord.closed_of_mem (List.mem_append_left _ (List.mem_append_left _ hi))).2 (heq ▸ hcur)
  cases ok with
  | true =>
    have hbatch : (s.loaded b true next).batch = Function.update s.batch s.current b := by
      simp [PipelineState.loaded, PipelineState.setBatch]
    refine h.frame hord rfl rfl rfl rfl rfl rfl rfl (fun i hi => ?_) (fun i _ => ?_)
    · rw [hbatch, Function.update_of_ne (hne i hi)]
    · rw [hbatch]
      by_cases hic : i = s.current
      · rw [hic, Function.update_self]
        exact ⟨hb, herr⟩
      · rw [Function.update_of_ne hic]
        exact ⟨rfl, rfl⟩
  | false =>
    obtain ⟨thawed, failed, below, reached, bounds⟩ := h
    have hbelow := Marked.dedupeSeq_le_lo ⟨thawed, failed, below, reached, bounds⟩ hord hwin hlt
      fun hr => hne _ hr rfl
    have hbatch : (s.loaded b false next).batch =
        Function.update s.batch s.current { b with loadError := true } := by
      simp [PipelineState.loaded, PipelineState.loadFailed, PipelineState.setBatch]
    have hat : (s.loaded b false next).loadFailedAt =
        if s.loadFailedAny = false ∨ b.window.lo < s.loadFailedAt then b.window.lo
        else s.loadFailedAt := rfl
    refine ⟨fun hf i hi => ?_, fun i hi hl => ⟨rfl, ?_⟩, fun i hi hl => ?_, ?_, bounds⟩
    · rw [hbatch, Function.update_of_ne (hne i hi)]
      exact thawed hf i hi
    · rw [hat, hbatch] at *
      by_cases hic : i = s.current
      · rw [hic, Function.update_self]
        split_ifs with hcase
        · exact le_rfl
        · exact not_lt.mp fun hlo => hcase (Or.inr hlo)
      · rw [Function.update_of_ne hic] at hl ⊢
        obtain ⟨hany, hle⟩ := failed i hi hl
        split_ifs with hcase
        · rcases hcase with hnone | hlo
          · rw [hany] at hnone
            cases hnone
          · exact hlo.le.trans hle
        · exact hle
    · rw [hbatch] at hl ⊢
      by_cases hic : i = s.current
      · rw [hic, Function.update_self]
        exact hb ▸ hbelow
      · rw [Function.update_of_ne hic] at hl ⊢
        exact below i hi hl
    · rcases reached with hle | ⟨i, hi, hle, huncut⟩
      · exact Or.inl hle
      · refine Or.inr ⟨i, hi, ?_, fun j hj => ?_⟩
        · rw [hbatch, Function.update_of_ne (hne i hi)]
          exact hle
        · have hjr : j ∈ s.reaped := by
            rw [hord.reaped_eq] at hi ⊢
            exact List.mem_range.mpr (hj.trans_lt (List.mem_range.mp hi))
          rw [hbatch, Function.update_of_ne (hne j hjr)]
          exact huncut j hj

/-- Reaping a batch moves the watermark over it only when no batch so far was cut short, and never
over a window whose load failed. -/
theorem Marked.freeBatch (h : Marked ph s) (hord : Ordered s) {b : ℕ} {k : Reaping}
    (synced : Bool) (hst : s.stage = .free b k) : Marked ph (s.freeBatch b synced) := by
  obtain ⟨thawed, failed, below, reached, bounds⟩ := h
  have hmem : b ∈ s.reaped ++ s.stage.freeing ++ s.inflight := by simp [hst, Stage.freeing]
  have hlt := (hord.closed_of_mem hmem).1
  have hthawed : (s.watermarkFrozen || (s.batch b).cutShort) = false →
      ∀ i ∈ s.reaped ++ [b], (s.batch i).cutShort = false := by
    intro hf i hi
    obtain ⟨hf, hcut⟩ := Bool.or_eq_false_iff.mp hf
    rcases List.mem_append.mp hi with hi | hi
    · exact thawed hf i hi
    · obtain rfl := List.mem_singleton.mp hi
      exact hcut
  have hkept : Marked ph { s with
      watermarkFrozen := s.watermarkFrozen || (s.batch b).cutShort
      reaped := s.reaped ++ [b] } :=
    ⟨hthawed, failed, below, reached.imp_right fun ⟨i, hi, h⟩ =>
      ⟨i, List.mem_append_left _ hi, h⟩, bounds⟩
  have hprefix : s.reaped ++ [b] <+: List.range s.begun := by
    rw [← hord.held, hst, List.append_assoc (s.reaped ++ _)]
    exact List.prefix_append _ _
  unfold PipelineState.freeBatch
  dsimp only
  by_cases hfrozen : (s.watermarkFrozen || (s.batch b).cutShort) = true
  · rw [if_pos hfrozen]
    exact hkept
  · rw [if_neg hfrozen]
    have huncut := hthawed (by simpa using hfrozen)
    unfold PipelineState.advanceSeq
    dsimp only
    generalize hq : (if s.loadFailedAny = true ∧ s.loadFailedAt < (s.batch b).window.hi then
      s.loadFailedAt else (s.batch b).window.hi) = q
    have hqhi : q ≤ (s.batch b).window.hi := by
      rw [← hq]
      split_ifs with hcase
      · exact hcase.2.le
      · exact le_rfl
    by_cases hle : q ≤ s.dedupeSeq
    · rw [if_pos hle]
      exact hkept
    · rw [if_neg hle]
      refine ⟨hthawed, failed, fun i hi hl => ?_, Or.inr ⟨b, by simp, hqhi, fun j hj => ?_⟩, ?_⟩
      · -- the failed window clamps what is stored
        obtain ⟨hany, hat⟩ := failed i hi hl
        refine le_trans ?_ hat
        change q ≤ s.loadFailedAt
        rw [← hq]
        split_ifs with hcase
        · exact le_rfl
        · exact not_lt.mp fun hlt => hcase ⟨hany, hlt⟩
      · apply huncut
        have hrange := List.prefix_iff_eq_take.mp hprefix
        rw [List.take_range] at hrange
        have hb : b ∈ s.reaped ++ [b] := by simp
        rw [hrange, List.mem_range] at hb ⊢
        exact hj.trans_lt hb
      · have := bounds.1
        have := bounds.2
        dsimp only
        split_ifs <;> omega

theorem Marked.step (h : Marked ph s) (hord : Ordered s) (hwin : Windowed ph s) (hcount : Counted s)
    (hstep : PipelineStep ph s s') : Marked ph s' := by
  have hcurrent : s.stage.inBatch = true → ∀ i ∈ s.reaped, i ≠ s.current := fun hin i hi heq =>
    (hord.closed_of_mem (List.mem_append_left _ (List.mem_append_left _ hi))).2
      (heq ▸ hord.inside hin)
  -- the open batch with the same window and verdicts
  have hset : ∀ b, s.stage.inBatch = true → b.window = (s.batch s.current).window →
      b.loadError = (s.batch s.current).loadError → Marked ph (s.setBatch s.current b) := by
    intro b hin hb herr
    refine h.frame hord rfl rfl rfl rfl rfl rfl rfl (fun i hi => ?_) (fun i _ => ?_)
    · dsimp only [PipelineState.setBatch]
      rw [Function.update_of_ne (hcurrent hin i hi)]
    · dsimp only [PipelineState.setBatch]
      by_cases hic : i = s.current
      · rw [hic, Function.update_self]
        exact ⟨hb, herr⟩
      · rw [Function.update_of_ne hic]
        exact ⟨rfl, rfl⟩
  have hstage : ∀ {t : PipelineState}, Marked ph t → ∀ stage left inflight openBatch,
      Marked ph { t with stage := stage, left := left, inflight := inflight, openBatch := openBatch } :=
    fun ht _ _ _ _ => ⟨ht.thawed, ht.failed, ht.below, ht.reached, ht.bounds⟩
  cases hstep with
  | signal => exact ⟨h.thawed, h.failed, h.below, h.reached, h.bounds⟩
  | worker i b hi hb =>
    obtain ⟨hwindow, -, -, -, herr, -⟩ := hb.frame
    refine h.frame hord rfl rfl rfl rfl rfl rfl rfl (fun j hj => ?_) (fun j _ => ?_)
    · dsimp only [PipelineState.setBatch]
      have hj' := List.mem_append_left s.stage.freeing hj
      have hclosed := hord.closed_of_mem (List.mem_append_left _ hj')
      by_cases hij : j = i
      · subst hij
        exact absurd hb ((hcount.closed j hclosed.1 hclosed.2).accounted.not_worker
          (hcount.finished j hj'))
      · rw [Function.update_of_ne hij]
    · dsimp only [PipelineState.setBatch]
      by_cases hij : j = i
      · rw [hij, Function.update_self]
        exact ⟨hwindow, herr⟩
      · rw [Function.update_of_ne hij]
        exact ⟨rfl, rfl⟩
  | control next hc => exact hstage h _ _ _ _
  | nextWindow w ws hst => exact hstage h _ _ _ _
  | reapFront k b rest hst => exact hstage h _ _ _ _
  | free b k synced hst => exact hstage (h.freeBatch hord synced hst) _ _ _ _
  | beginBatch w hst =>
    have hlt : ∀ i ∈ s.reaped, i < s.begun := fun i hi =>
      (hord.closed_of_mem (List.mem_append_left _ (List.mem_append_left _ hi))).1
    refine ⟨fun hf i hi => ?_, fun i hi hl => ?_, fun i hi hl => ?_, ?_, h.bounds⟩
    · dsimp only [PipelineState.setBatch] at hi ⊢
      rw [Function.update_of_ne (hlt i hi).ne]
      exact h.thawed hf i hi
    · dsimp only [PipelineState.setBatch] at hi hl ⊢
      by_cases hlast : i = s.begun
      · rw [hlast, Function.update_self] at hl
        cases hl
      · rw [Function.update_of_ne hlast] at hl ⊢
        exact h.failed i (by omega) hl
    · dsimp only [PipelineState.setBatch] at hi hl ⊢
      by_cases hlast : i = s.begun
      · rw [hlast, Function.update_self] at hl
        cases hl
      · rw [Function.update_of_ne hlast] at hl ⊢
        exact h.below i (by omega) hl
    · refine h.reached.imp_right fun ⟨i, hi, hle, huncut⟩ => ⟨i, hi, ?_, fun j hj => ?_⟩
      · dsimp only [PipelineState.setBatch]
        rw [Function.update_of_ne (hlt i hi).ne]
        exact hle
      · dsimp only [PipelineState.setBatch]
        rw [Function.update_of_ne (hj.trans_lt (hlt i hi)).ne]
        exact huncut j hj
  | loadFiles found ok hst => exact h.loaded hord hwin (by rw [hst]; rfl) ok _ rfl rfl
  | loadExtents found ok hst => exact h.loaded hord hwin (by rw [hst]; rfl) ok _ rfl rfl
  | loadBlocks found ok hst => exact h.loaded hord hwin (by rw [hst]; rfl) ok _ rfl rfl
  | reserve t g rest hst =>
    exact hstage (hset { s.batch s.current with
      outstanding := (s.batch s.current).outstanding + 1 } (by rw [hst]; rfl) rfl rfl) _ _ _ _
  | poolPush t g rest hst =>
    exact hstage (hset { s.batch s.current with
      items := (s.batch s.current).items ++ [⟨g, .queued⟩] } (by rw [hst]; rfl) rfl rfl) _ _ _ _
  | sealBatch hst =>
    exact hstage (hset { s.batch s.current with fullyPushed := true } (by rw [hst]; rfl) rfl rfl)
      _ _ _ _

theorem PipelineInv.init (ph : DedupePhase) : PipelineInv ph ph.init where
  ordered := ⟨rfl, by simp [DedupePhase.init, Stage.inBatch], fun _ => rfl, Nat.zero_le _⟩
  windowed := ⟨by simp [DedupePhase.init], rfl⟩
  counted := ⟨by simp [DedupePhase.init], by simp [DedupePhase.init, Stage.inBatch],
    by simp [DedupePhase.init, Stage.freeing]⟩
  marked := ⟨by simp [DedupePhase.init], by simp [DedupePhase.init], by simp [DedupePhase.init],
    Or.inl le_rfl, ⟨le_rfl, le_rfl⟩⟩

theorem PipelineInv.step (h : PipelineInv ph s) (hstep : PipelineStep ph s s') :
    PipelineInv ph s' where
  ordered := h.ordered.step hstep
  windowed := h.windowed.step h.ordered hstep
  counted := h.counted.step h.ordered hstep
  marked := h.marked.step h.ordered h.windowed h.counted hstep

theorem DedupePhase.Reachable.inv (h : ph.Reachable s) : PipelineInv ph s := by
  induction h with
  | refl => exact PipelineInv.init ph
  | tail _ hstep ih => exact ih.step hstep

theorem PipelineStep.stored_le (h : PipelineInv ph s) (hstep : PipelineStep ph s s') :
    s.stored ≤ s'.stored := by
  cases hstep with
  | free b k synced hst =>
    have hle := h.marked.bounds.2
    dsimp only
    unfold PipelineState.freeBatch PipelineState.advanceSeq
    dsimp only
    split_ifs <;> dsimp only <;> omega
  | loadFiles found ok => exact (loaded_frame (s := s) _ ok _).2.2.2.2.2.2.2.2.2.ge
  | loadExtents found ok => exact (loaded_frame (s := s) _ ok _).2.2.2.2.2.2.2.2.2.ge
  | loadBlocks found ok => exact (loaded_frame (s := s) _ ok _).2.2.2.2.2.2.2.2.2.ge
  | _ => exact le_rfl

/-- The producer never reaps with a batch open. -/
theorem PipelineInv.no_assert (h : PipelineInv ph s) {b : ℕ} {k : Reaping}
    (hst : s.stage = .free b k) : s.openBatch = none := h.ordered.outside (by rw [hst]; rfl)

/-- In every reachable state the stored watermark covers only windows that were loaded without
error, pushed as a whole and run to the last group, and so does every window before them; the
watermark never falls, batches are reaped once each in the order of their generations, and no more
than two sealed batches are in flight. -/
theorem DedupePhase.watermark_covers_done (ph : DedupePhase) {s : PipelineState}
    (h : ph.Reachable s) :
    (∀ (i : ℕ) (w : Window ℕ), ph.windows[i]? = some w → w.hi ≤ s.stored →
      ∀ j ≤ i, j < s.begun ∧ ph.windows[j]? = some (s.batch j).window ∧ (s.batch j).Done) ∧
    (∀ t, Relation.ReflTransGen (PipelineStep ph) s t → s.stored ≤ t.stored) ∧
    s.reaped = List.range s.reaped.length ∧
    (s.stage = .ended → s.reaped.length = s.begun) ∧
    s.inflight.length ≤ DEDUPE_MAX_INFLIGHT := by
  have hinv := h.inv
  refine ⟨fun i w hw hle j hj => ?_, fun t ht => ?_, hinv.ordered.reaped_eq, fun hend => ?_, ?_⟩
  · have hseq := hle.trans hinv.marked.bounds.2
    have hpos := ph.cut.lo_lt_hi w (List.mem_of_getElem? hw)
    have hfirst := ph.cut.lo_ge w (List.mem_of_getElem? hw)
    rcases hinv.marked.reached with hnone | ⟨r, hr, hreach, huncut⟩
    · omega
    · have hrlt := (hinv.ordered.closed_of_mem
        (List.mem_append_left _ (List.mem_append_left _ hr))).1
      have hir : i ≤ r := by
        by_contra hlt
        have := ph.cut.hi_le_lo (hinv.windowed.begun r hrlt) hw (not_le.mp hlt)
        omega
      have hjr : j ∈ s.reaped := by
        rw [hinv.ordered.reaped_eq] at hr ⊢
        exact List.mem_range.mpr ((hj.trans hir).trans_lt (List.mem_range.mp hr))
      have hjlt : j < s.begun := ((hj.trans hir).trans_lt hrlt)
      have hclosed := hinv.ordered.closed_of_mem
        (List.mem_append_left _ (List.mem_append_left s.stage.freeing hjr))
      have hget := hinv.windowed.begun j hjlt
      refine ⟨hjlt, hget, (hinv.counted.closed j hclosed.1 hclosed.2).done
        (hinv.counted.finished j (List.mem_append_left _ hjr)) (huncut j (hj.trans hir)) ?_⟩
      -- a failed load of this window would hold the watermark at its lower end
      by_contra hload
      have hbelow := hinv.marked.below j hjlt (by simpa using hload)
      have hlo : (s.batch j).window.lo ≤ w.lo := by
        rcases hj.lt_or_eq with hlt | rfl
        · have hjpos := ph.cut.lo_lt_hi _ (List.mem_of_getElem? hget)
          have := ph.cut.hi_le_lo hget hw hlt
          omega
        · rw [hget] at hw
          rw [Option.some.inj hw]
      omega
  · induction ht with
    | refl => exact le_rfl
    | tail hst hstep ih => exact ih.trans (hstep.stored_le (DedupePhase.Reachable.inv (h.trans hst)))
  · have hheld := hinv.ordered.held
    have hslots := hinv.ordered.slots
    rw [hend] at hheld hslots
    have hempty : s.inflight = [] := List.length_eq_zero_iff.mp (Nat.le_zero.mp hslots)
    rw [hinv.ordered.outside (by rw [hend]; rfl), hempty] at hheld
    have := congrArg List.length hheld
    simpa [Stage.freeing] using this
  · refine hinv.ordered.slots.trans ?_
    cases s.stage with
    | reap k => cases k <;> simp [Stage.slots, DEDUPE_MAX_INFLIGHT]
    | free b k => cases k <;> simp [Stage.slots, DEDUPE_MAX_INFLIGHT]
    | wait k => cases k <;> simp [Stage.slots, DEDUPE_MAX_INFLIGHT]
    | _ => simp [Stage.slots, DEDUPE_MAX_INFLIGHT]

def onePairPhase : DedupePhase := ⟨0, 1, [⟨0, 1⟩], by decide, true, false⟩

/-- The pair is deduplicated, what is alone in its group is left out, and the generation is
recorded as done. -/
theorem watermark_covers_done_onePairPhase :
    ∃ s, onePairPhase.Reachable s ∧ s.stored = 1 ∧ (s.batch 0).items = [⟨⟨4096, 2⟩, .ran⟩] ∧
      (s.batch 0).Done := by
  have h : onePairPhase.Reachable _ := .tail .refl (.nextWindow ⟨0, 1⟩ [] rfl rfl rfl)
  have h := h.tail (.control _ (.reapSlot ⟨0, 1⟩ (by simp [PipelineState.FrontReady,
    DedupePhase.init]) (by decide)))
  have h := h.tail (.beginBatch ⟨0, 1⟩ rfl)
  have h := h.tail (.loadFiles [⟨4096, 2⟩, ⟨8192, 1⟩] true rfl)
  have h := h.tail (.control _ (.sortFiles [⟨4096, 2⟩] (List.Perm.refl _) (by simp)))
  have h := h.tail (.reserve .files ⟨4096, 2⟩ [] rfl (by decide))
  have h := h.tail (.poolPush .files ⟨4096, 2⟩ [] rfl)
  have h := h.tail (.control _ .pushedFiles)
  have h := h.tail (.sealBatch rfl)
  have h := h.tail (.worker 0 _ Nat.one_pos (.take _ [] [] ⟨4096, 2⟩ rfl))
  have h := h.tail (.worker 0 _ Nat.one_pos (.finish _ [] [] ⟨4096, 2⟩ rfl))
  have h := h.tail (.reapFront .sealed 0 [] rfl rfl rfl rfl)
  have h := h.tail (.free 0 .sealed true rfl rfl)
  exact ⟨_, h, rfl, rfl,
    ((onePairPhase.watermark_covers_done h).1 0 ⟨0, 1⟩ rfl le_rfl 0 le_rfl).2.2⟩

end Oans
