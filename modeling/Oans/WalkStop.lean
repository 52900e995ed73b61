import Mathlib.Data.List.ReduceOption
import Oans.Threads
import Oans.WalkQueue

/-!
# The stop protocol of the walk

The counter holds one for every directory queued or in hand and one for the seeding token, so it
reaches zero once, when nothing can be queued any more; the sentinels then go out behind everything
else. The invariant adds up what each thread holds; a step only moves amounts between a thread, the
queues and the record of the run.
-/

namespace Oans

variable {D F : Type*} {n : ℕ}

namespace Pc

@[simp] def holds : Pc D F → ℕ
  | .popped _ | .listing _ | .accepted _ _ | .starting | .finishing => 1
  | .raised _ _ => 2
  | _ => 0

@[simp] def isStopping : Pc D F → ℕ
  | .stopping _ => 1
  | _ => 0

@[simp] def sentinels : Pc D F → ℕ
  | .stopping k => k
  | _ => 0

@[simp] def exits : Pc D F → ℕ
  | .exited => 1
  | _ => 0

@[simp] def joins : Pc D F → ℕ
  | .joining | .joined => 1
  | _ => 0

@[simp] def inHand : Pc D F → Multiset F
  | .accepted f _ => {f}
  | _ => 0

@[simp] def poppedDir : Pc D F → Multiset D
  | .popped d => {d}
  | _ => 0

@[simp] def remaining : Pc D F → Multiset D
  | .listing es | .accepted _ es => es.filterMap Entry.dir?
  | .raised d es => d ::ₘ es.filterMap Entry.dir?
  | _ => 0

@[simp] def isSeeding : Pc D F → Bool
  | .listing _ | .accepted _ _ | .raised _ _ | .starting => true
  | _ => false

@[simp] def fits : Thread n → Pc D F → Bool
  | none, .popping | none, .popped _ | none, .exited => false
  | none, _ => true
  | some _, .starting | some _, .consuming | some _, .taken _ | some _, .joining
  | some _, .joined => false
  | some _, _ => true

end Pc

def dirsIn (q : List (Option D)) : ℕ := q.countP Option.isSome

def stopsIn {α : Type*} (q : List (Option α)) : ℕ := q.countP Option.isNone

@[simp] theorem dirsIn_nil : dirsIn ([] : List (Option D)) = 0 := rfl

@[simp] theorem dirsIn_cons (x : Option D) (q : List (Option D)) :
    dirsIn (x :: q) = dirsIn q + if x.isSome then 1 else 0 := List.countP_cons

@[simp] theorem dirsIn_append (q q' : List (Option D)) : dirsIn (q ++ q') = dirsIn q + dirsIn q' :=
  List.countP_append

@[simp] theorem stopsIn_nil {α : Type*} : stopsIn ([] : List (Option α)) = 0 := rfl

@[simp] theorem stopsIn_cons {α : Type*} (x : Option α) (q : List (Option α)) :
    stopsIn (x :: q) = stopsIn q + if x.isNone then 1 else 0 := List.countP_cons

@[simp] theorem stopsIn_append {α : Type*} (q q' : List (Option α)) :
    stopsIn (q ++ q') = stopsIn q + stopsIn q' := List.countP_append

/-- What one step of thread `t` moves: from its place `s.pc t` to a new one, to or from a queue,
and into the record. -/
structure StepSpec (cfg : WalkConfig D F) (s : Walk D F n) (t : Thread n) (e : WalkEvent D F)
    (p : Pc D F) (s' : Walk D F n) : Prop where
  pc_eq : s'.pc = Function.update s.pc t p
  dirFifo : e.poppedDir?.toList ++ s'.walkDirq = s.walkDirq ++ e.pushedDir?.toList
  fileFifo : e.takenFile?.toList ++ s'.walkFileq = s.walkFileq ++ e.pushedFile?.toList
  pending : s'.walkDirPending + (dirsIn s.walkDirq + (s.pc t).holds : ℕ) =
    s.walkDirPending + (dirsIn s'.walkDirq + p.holds : ℕ)
  zero : e.isZero = true → s'.walkDirPending = 0 ∧ 0 < (s.pc t).holds
  nonzero : e.isZero = false → s'.walkDirPending = s.walkDirPending ∨
    0 < (s.pc t).holds ∧ (s'.walkDirPending ≠ 0 ∨ s'.walkDirPending = s.walkDirPending + 1)
  stopping : p.isStopping + stopsIn e.pushedFile?.toList =
    (s.pc t).isStopping + if e.isZero then 1 else 0
  sentinels : p.sentinels + stopsIn e.pushedDir?.toList =
    (s.pc t).sentinels + if e.isZero then n else 0
  exits : p.exits = (s.pc t).exits + stopsIn e.poppedDir?.toList
  joins : p.joins = (s.pc t).joins + stopsIn e.takenFile?.toList
  accepted : (e.accepted?.toList : Multiset F) + (s.pc t).inHand =
    (e.pushedFile?.toList.reduceOption : Multiset F) + p.inHand
  queueing : (∃ f, e.pushedFile? = some (some f)) ∨ (∃ d, e.pushedDir? = some (some d)) →
    0 < (s.pc t).holds
  accepting : (∃ f, e.accepted? = some f) → 0 < (s.pc t).holds
  processed : (e.processed?.toList : Multiset D) + p.poppedDir ≤
    (e.poppedDir?.toList.reduceOption : Multiset D) + (s.pc t).poppedDir
  queued : (e.pushedDir?.toList.reduceOption : Multiset D) + p.remaining = (s.pc t).remaining +
    ((e.processed?.toList.map fun d => ((cfg.listing d).filterMap Entry.dir? : Multiset D)).sum)
  fits : (s.pc t).fits t = true → p.fits t = true
  started : s.started ≤ s'.started ∧ (s.started ≤ n → s'.started ≤ n)
  seeding : t = none → s'.started < n → (s.pc t).isSeeding = true → p.isSeeding = true

/-- One case for each place a thread can stand; the amounts of the specification are read off. -/
theorem threadStep_spec {cfg : WalkConfig D F} {s s' : Walk D F n} {t : Thread n}
    {e : WalkEvent D F} (h : s.threadStep cfg t = some (e, s')) :
    ∃ p, StepSpec cfg s t e p s' := by
  unfold Walk.threadStep at h
  by_cases hawake : s.awake t = false
  · rw [if_pos hawake] at h
    cases h
  rw [if_neg hawake] at h
  cases hpc : s.pc t with
  | popping =>
    simp only [hpc] at h
    split at h
    · cases h
    next q hq =>
      cases h
      exact ⟨.exited, by cases t <;> constructor <;> simp [Walk.goto, hpc, hq, List.reduceOption]⟩
    next d q hq =>
      cases h
      exact ⟨.popped d, by cases t <;> constructor <;> simp [Walk.goto, hpc, hq, List.reduceOption]⟩
  | popped d =>
    simp only [hpc] at h
    split_ifs at h <;> cases h
    · exact ⟨.listing (cfg.listing d), by
        cases t <;> constructor <;> simp [Walk.goto, hpc, List.reduceOption]⟩
    · exact ⟨.finishing, by cases t <;> constructor <;> simp [Walk.goto, hpc, List.reduceOption]⟩
  | listing es =>
    simp only [hpc] at h
    rcases es with - | ⟨- | f | d, es⟩ <;> cases h
    · exact ⟨Walk.afterListing t, by
        cases t <;> constructor <;> simp [Walk.goto, Walk.afterListing, hpc, List.reduceOption]⟩
    · exact ⟨.listing es, by
        cases t <;> constructor <;> simp [Walk.goto, hpc, List.reduceOption, List.filterMap_cons]⟩
    · exact ⟨.accepted f es, by
        cases t <;> constructor <;> simp [Walk.goto, hpc, List.reduceOption, List.filterMap_cons]⟩
    · exact ⟨.raised d es, by
        cases t <;> constructor <;> simp [Walk.goto, hpc, List.reduceOption]
        all_goals omega⟩
  | accepted f es =>
    simp only [hpc] at h
    cases h
    exact ⟨.listing es, by cases t <;> constructor <;> simp [Walk.goto, hpc, List.reduceOption]⟩
  | raised d es =>
    simp only [hpc] at h
    cases h
    exact ⟨.listing es, by
      cases t <;> constructor <;> simp [Walk.goto, hpc, List.reduceOption, add_assoc]⟩
  | starting =>
    simp only [hpc] at h
    split_ifs at h with hlt <;> cases h
    · exact ⟨.starting, by cases t <;> constructor <;> simp [hpc, List.reduceOption]; all_goals omega⟩
    · exact ⟨.finishing, by
        cases t <;> constructor <;> simp [Walk.goto, hpc, hlt, List.reduceOption]⟩
  | finishing =>
    simp only [hpc] at h
    split_ifs at h with hzero <;> cases h
    · exact ⟨.stopping n, by
        cases t <;> constructor <;> simp [Walk.goto, hpc, List.reduceOption]; all_goals omega⟩
    · exact ⟨Walk.afterFinished t, by
        cases t <;> constructor <;> simp [Walk.goto, Walk.afterFinished, hpc, List.reduceOption]
        all_goals omega⟩
  | stopping k =>
    simp only [hpc] at h
    cases k with
    | zero =>
      cases h
      exact ⟨Walk.afterFinished t, by
        cases t <;> constructor <;> simp [Walk.goto, Walk.afterFinished, hpc, List.reduceOption]⟩
    | succ k =>
      cases h
      exact ⟨.stopping k, by cases t <;> constructor <;> simp [Walk.goto, hpc, List.reduceOption]⟩
  | exited =>
    simp only [hpc] at h
    cases h
  | consuming =>
    simp only [hpc] at h
    split at h
    · cases h
    next q hq =>
      cases h
      exact ⟨.joining, by cases t <;> constructor <;> simp [Walk.goto, hpc, hq, List.reduceOption]⟩
    next f q hq =>
      cases h
      exact ⟨.taken f, by cases t <;> constructor <;> simp [Walk.goto, hpc, hq, List.reduceOption]⟩
  | taken f =>
    simp only [hpc] at h
    cases h
    exact ⟨.consuming, by cases t <;> constructor <;> simp [Walk.goto, hpc, List.reduceOption]⟩
  | joining =>
    simp only [hpc] at h
    split_ifs at h
    cases h
    exact ⟨.joined, by cases t <;> constructor <;> simp [Walk.goto, hpc, List.reduceOption]⟩
  | joined =>
    simp only [hpc] at h
    cases h

theorem StepSpec.of_pc_eq {cfg : WalkConfig D F} {s s' : Walk D F n} (hpc : s'.pc = s.pc)
    (hdirq : s'.walkDirq = s.walkDirq) (hfileq : s'.walkFileq = s.walkFileq)
    (hpending : s'.walkDirPending = s.walkDirPending) (hstarted : s'.started = s.started) :
    StepSpec cfg s none .silent (s.pc none) s' := by
  constructor <;> simp [hpc, hdirq, hfileq, hpending, hstarted, List.reduceOption]

theorem filterMap_append_singleton {α β : Type*} (g : α → Option β) (es : List α) (e : α) :
    (es ++ [e]).filterMap g = es.filterMap g ++ (g e).toList := by
  rw [List.filterMap_append]
  cases hg : g e <;> simp [hg]

def StopsLast {α : Type*} (l : List (Option α)) : Prop := l.Pairwise fun a b => a = none → b = none

theorem StopsLast.append {α : Type*} {l : List (Option α)} (h : StopsLast l) {x : Option (Option α)}
    (hx : ∀ y, x = some (some y) → stopsIn l = 0) : StopsLast (l ++ x.toList) := by
  refine List.pairwise_append.mpr ⟨h, by cases x <;> simp, fun a ha b hb hnone => ?_⟩
  rcases x with - | - | y
  · simp at hb
  · simpa using hb
  · exact absurd (hx y rfl) (Nat.ne_of_gt (List.countP_pos_iff.mpr ⟨a, ha, by simp [hnone]⟩))

structure WalkInv (cfg : WalkConfig D F) (es : List (WalkEvent D F)) (s : Walk D F n) : Prop where
  dirFifo : es.filterMap WalkEvent.poppedDir? ++ s.walkDirq = es.filterMap WalkEvent.pushedDir?
  fileFifo : es.filterMap WalkEvent.takenFile? ++ s.walkFileq = es.filterMap WalkEvent.pushedFile?
  pending : s.walkDirPending = (dirsIn s.walkDirq + ∑ t, (s.pc t).holds : ℕ)
  zeros : es.countP WalkEvent.isZero = if s.walkDirPending = 0 then 1 else 0
  stopping : ∑ t, (s.pc t).isStopping + stopsIn (es.filterMap WalkEvent.pushedFile?) =
    es.countP WalkEvent.isZero
  sentinels : ∑ t, (s.pc t).sentinels + stopsIn (es.filterMap WalkEvent.pushedDir?) =
    n * es.countP WalkEvent.isZero
  exits : ∑ t, (s.pc t).exits = stopsIn (es.filterMap WalkEvent.poppedDir?)
  joins : ∑ t, (s.pc t).joins = stopsIn (es.filterMap WalkEvent.takenFile?)
  accepted : (es.filterMap WalkEvent.accepted? : Multiset F) =
    ((es.filterMap WalkEvent.pushedFile?).reduceOption : Multiset F) + ∑ t, (s.pc t).inHand
  fileOrder : StopsLast (es.filterMap WalkEvent.pushedFile?)
  dirOrder : StopsLast (es.filterMap WalkEvent.pushedDir?)
  processed : (es.filterMap WalkEvent.processed? : Multiset D) + ∑ t, (s.pc t).poppedDir ≤
    ((es.filterMap WalkEvent.poppedDir?).reduceOption : Multiset D)
  queued : ((es.filterMap WalkEvent.pushedDir?).reduceOption : Multiset D) +
      ∑ t, (s.pc t).remaining = (cfg.seeds.filterMap Entry.dir? : Multiset D) +
    ((es.filterMap WalkEvent.processed?).map fun d =>
      ((cfg.listing d).filterMap Entry.dir? : Multiset D)).sum
  fits : ∀ t, (s.pc t).fits t = true
  started : s.started ≤ n
  seeding : s.started < n → (s.pc none).isSeeding = true

theorem WalkInv.init (cfg : WalkConfig D F) : WalkInv cfg [] (Walk.init cfg : Walk D F n) := by
  constructor <;> simp [Walk.init, StopsLast, List.reduceOption, Fintype.sum_option]
  intro t
  cases t <;> rfl

theorem WalkInv.pending_pos {cfg : WalkConfig D F} {es : List (WalkEvent D F)} {s : Walk D F n}
    (h : WalkInv cfg es s) {t : Thread n} (ht : 0 < (s.pc t).holds) : 0 < s.walkDirPending := by
  have hle : (s.pc t).holds ≤ ∑ u, (s.pc u).holds :=
    Finset.single_le_sum (f := fun u => (s.pc u).holds) (fun u _ => Nat.zero_le _)
      (Finset.mem_univ t)
  rw [h.pending]
  omega

theorem StepSpec.sum_pc {cfg : WalkConfig D F} {s s' : Walk D F n} {t : Thread n}
    {e : WalkEvent D F} {p : Pc D F} (hs : StepSpec cfg s t e p s') {M : Type*} [AddCommMonoid M]
    (φ : Pc D F → M) : ∑ u, φ (s'.pc u) + φ (s.pc t) = ∑ u, φ (s.pc u) + φ p := by
  rw [hs.pc_eq]
  exact Threads.sum_update φ s.pc t p

/-- The counter reaches zero in a step that says so, and stays there. -/
theorem WalkInv.zeros_step {cfg : WalkConfig D F} {es : List (WalkEvent D F)} {s s' : Walk D F n}
    {t : Thread n} {e : WalkEvent D F} {p : Pc D F} (h : WalkInv cfg es s)
    (hs : StepSpec cfg s t e p s') :
    (es ++ [e]).countP WalkEvent.isZero = if s'.walkDirPending = 0 then 1 else 0 := by
  have hpos := h.pending_pos (t := t)
  rw [List.countP_append, List.countP_singleton, h.zeros]
  cases he : e.isZero with
  | true =>
    obtain ⟨hzero, hholds⟩ := hs.zero he
    have := hpos hholds
    rw [if_neg (by omega), if_pos rfl, if_pos hzero]
  | false =>
    rcases hs.nonzero he with hsame | ⟨hholds, hnew⟩
    · simp [hsame]
    · have := hpos hholds
      rw [if_neg (by omega), if_neg (by simp), if_neg (by omega)]

theorem WalkInv.step {cfg : WalkConfig D F} {es : List (WalkEvent D F)} {s s' : Walk D F n}
    {t : Thread n} {e : WalkEvent D F} {p : Pc D F} (h : WalkInv cfg es s)
    (hs : StepSpec cfg s t e p s') : WalkInv cfg (es ++ [e]) s' := by
  have hquiet : 0 < (s.pc t).holds → es.countP WalkEvent.isZero = 0 := fun hholds => by
    have := h.pending_pos hholds
    rw [h.zeros, if_neg (by omega)]
  have hcount : (es ++ [e]).countP WalkEvent.isZero =
      es.countP WalkEvent.isZero + if e.isZero then 1 else 0 := by
    rw [List.countP_append, List.countP_singleton]
  constructor
  case dirFifo =>
    rw [filterMap_append_singleton, filterMap_append_singleton, List.append_assoc, hs.dirFifo,
      ← List.append_assoc, h.dirFifo]
  case fileFifo =>
    rw [filterMap_append_singleton, filterMap_append_singleton, List.append_assoc, hs.fileFifo,
      ← List.append_assoc, h.fileFifo]
  case pending =>
    have hsum := hs.sum_pc Pc.holds
    have hold := h.pending
    have hmove := hs.pending
    omega
  case zeros => exact h.zeros_step hs
  case stopping =>
    have hsum := hs.sum_pc Pc.isStopping
    have hold := h.stopping
    have hmove := hs.stopping
    rw [filterMap_append_singleton, stopsIn_append, hcount]
    omega
  case sentinels =>
    have hsum := hs.sum_pc Pc.sentinels
    have hold := h.sentinels
    have hmove := hs.sentinels
    rw [filterMap_append_singleton, stopsIn_append, hcount, Nat.mul_add, ← hold, mul_ite,
      Nat.mul_one, Nat.mul_zero]
    omega
  case exits =>
    have hsum := hs.sum_pc Pc.exits
    have hmove := hs.exits
    rw [filterMap_append_singleton, stopsIn_append, ← h.exits]
    omega
  case joins =>
    have hsum := hs.sum_pc Pc.joins
    have hmove := hs.joins
    rw [filterMap_append_singleton, stopsIn_append, ← h.joins]
    omega
  case accepted =>
    have hsum := hs.sum_pc Pc.inHand
    have hmove := hs.accepted
    rw [filterMap_append_singleton, filterMap_append_singleton, List.reduceOption_append,
      ← Multiset.coe_add, ← Multiset.coe_add, h.accepted]
    refine add_right_cancel (b := (s.pc t).inHand) ?_
    rw [add_assoc, hmove, add_assoc _ (∑ u, (s'.pc u).inHand), hsum]
    abel
  case fileOrder =>
    rw [filterMap_append_singleton]
    refine h.fileOrder.append fun f hf => ?_
    have hzero := h.stopping
    have := hquiet (hs.queueing (Or.inl ⟨f, hf⟩))
    omega
  case dirOrder =>
    rw [filterMap_append_singleton]
    refine h.dirOrder.append fun d hd => ?_
    have hzero := h.sentinels
    rw [hquiet (hs.queueing (Or.inr ⟨d, hd⟩)), Nat.mul_zero] at hzero
    omega
  case processed =>
    have hsum := hs.sum_pc Pc.poppedDir
    rw [filterMap_append_singleton, filterMap_append_singleton, List.reduceOption_append,
      ← Multiset.coe_add, ← Multiset.coe_add]
    refine le_of_add_le_add_right (a := (s.pc t).poppedDir) ?_
    rw [add_assoc, hsum]
    calc _ = ((es.filterMap WalkEvent.processed? : Multiset D) + ∑ u, (s.pc u).poppedDir) +
          ((e.processed?.toList : Multiset D) + p.poppedDir) := by abel
      _ ≤ _ := add_le_add h.processed hs.processed
      _ = _ := by abel
  case queued =>
    have hsum := hs.sum_pc Pc.remaining
    rw [filterMap_append_singleton, filterMap_append_singleton, List.reduceOption_append,
      ← Multiset.coe_add, List.map_append, List.sum_append, ← add_assoc, ← h.queued]
    refine add_right_cancel (b := (s.pc t).remaining) ?_
    rw [add_assoc, hsum]
    calc _ = ((es.filterMap WalkEvent.pushedDir?).reduceOption : Multiset D) +
          ∑ u, (s.pc u).remaining +
          ((e.pushedDir?.toList.reduceOption : Multiset D) + p.remaining) := by abel
      _ = _ := by rw [hs.queued]; abel
  case fits =>
    intro u
    rw [hs.pc_eq]
    by_cases hu : u = t
    · subst hu
      rw [Function.update_self]
      exact hs.fits (h.fits u)
    · rw [Function.update_of_ne hu]
      exact h.fits u
  case started => exact hs.started.2 h.started
  case seeding =>
    intro hlt
    have hold := h.seeding (lt_of_le_of_lt hs.started.1 hlt)
    rw [hs.pc_eq]
    by_cases ht : t = none
    · subst ht
      rw [Function.update_self]
      exact hs.seeding rfl hlt hold
    · rwa [Function.update_of_ne (Ne.symm ht)]

theorem WalkRun.inv {cfg : WalkConfig D F} {es : List (WalkEvent D F)}
    {s : Walk D F cfg.walkNthreads} (h : WalkRun cfg es s) : WalkInv cfg es s := by
  induction h with
  | init => exact .init cfg
  | thread t _ hstep ih =>
    obtain ⟨p, hs⟩ := threadStep_spec hstep
    exact ih.step hs
  | interrupt _ _ ih => exact ih.step (.of_pc_eq rfl rfl rfl rfl rfl)
  | loseBatch _ _ ih => exact ih.step (.of_pc_eq rfl rfl rfl rfl rfl)
  | refuse _ _ _ _ ih => exact ih.step (.of_pc_eq rfl rfl rfl rfl rfl)

/-! ### What the invariant says of a whole run -/

section Run

variable {cfg : WalkConfig D F} {es : List (WalkEvent D F)} {s : Walk D F n}

theorem StopsLast.eq_append {α : Type*} {l : List (Option α)} (h : StopsLast l) :
    l = l.reduceOption.map some ++ List.replicate (stopsIn l) none := by
  induction l with
  | nil => rfl
  | cons x xs ih =>
    obtain ⟨hx, hxs⟩ := List.pairwise_cons.mp h
    cases x with
    | none =>
      have hall : xs = List.replicate xs.length none :=
        List.eq_replicate_iff.mpr ⟨rfl, fun b hb => hx b hb rfl⟩
      rw [hall]
      simp [stopsIn, List.replicate_succ, List.countP_replicate]
    | some x =>
      conv_lhs => rw [ih hxs]
      simp

theorem WalkInv.zeros_le_one (h : WalkInv cfg es s) : es.countP WalkEvent.isZero ≤ 1 := by
  rw [h.zeros]
  split <;> omega

theorem WalkInv.holds_eq_zero (h : WalkInv cfg es s) (hzero : 0 < es.countP WalkEvent.isZero)
    (t : Thread n) : (s.pc t).holds = 0 := by
  by_contra hne
  have hpos := h.pending_pos (Nat.pos_of_ne_zero hne)
  rw [h.zeros, if_neg (by omega)] at hzero
  exact absurd hzero (lt_irrefl 0)

theorem Pc.inHand_eq_zero {p : Pc D F} (h : p.holds = 0) : p.inHand = 0 := by
  cases p <;> simp_all

theorem WalkInv.processed_le (h : WalkInv cfg es s) :
    (es.filterMap WalkEvent.processed? : Multiset D) ≤
      ((es.filterMap WalkEvent.pushedDir?).reduceOption : Multiset D) := by
  rw [← h.dirFifo, List.reduceOption_append, ← Multiset.coe_add]
  exact (Multiset.le_add_right _ _).trans (h.processed.trans (Multiset.le_add_right _ _))

theorem sum_map_le_one {α : Type*} {g : α → ℕ} {l : List α} (hl : l.Nodup) (hg : ∀ a, g a ≤ 1)
    (huniq : ∀ a b, 0 < g a → 0 < g b → a = b) : (l.map g).sum ≤ 1 := by
  induction l with
  | nil => simp
  | cons a l ih =>
    obtain ⟨ha, hl⟩ := List.nodup_cons.mp hl
    rw [List.map_cons, List.sum_cons]
    by_cases hpos : 0 < g a
    · have hrest : (l.map g).sum = 0 := by
        refine List.sum_eq_zero fun x hx => ?_
        obtain ⟨b, hb, rfl⟩ := List.mem_map.mp hx
        by_contra hne
        exact ha (huniq a b hpos (Nat.pos_of_ne_zero hne) ▸ hb)
      have := hg a
      omega
    · have := ih hl
      omega

/-- Where each directory is met once, directories taken up once queue each directory once. -/
theorem WalkInv.pushedDir_nodup (h : WalkInv cfg es s) (htree : cfg.IsTree)
    (hprocessed : (es.filterMap WalkEvent.processed?).Nodup) :
    (es.filterMap WalkEvent.pushedDir?).reduceOption.Nodup := by
  classical
  have hle : ((es.filterMap WalkEvent.pushedDir?).reduceOption : Multiset D) ≤
      (cfg.seeds.filterMap Entry.dir? : Multiset D) +
        ((es.filterMap WalkEvent.processed?).map fun d =>
          ((cfg.listing d).filterMap Entry.dir? : Multiset D)).sum := by
    rw [← h.queued]
    exact Multiset.le_add_right _ _
  rw [← Multiset.coe_nodup, Multiset.nodup_iff_count_le_one]
  intro d
  refine (Multiset.count_le_of_le d hle).trans ?_
  have hsum : ((es.filterMap WalkEvent.processed?).map fun p =>
      ((cfg.listing p).filterMap Entry.dir? : Multiset D)).sum.count d =
        ((es.filterMap WalkEvent.processed?).map fun p =>
          ((cfg.listing p).filterMap Entry.dir?).count d).sum := by
    rw [← Multiset.coe_countAddMonoidHom, map_list_sum, List.map_map]
    simp [Function.comp_def]
  have hchild : ((es.filterMap WalkEvent.processed?).map fun p =>
      ((cfg.listing p).filterMap Entry.dir?).count d).sum ≤ 1 :=
    sum_map_le_one hprocessed (fun p => List.nodup_iff_count_le_one.mp (htree.listing_nodup p) d)
      fun p p' hp hp' => htree.parent_unique d p p' (List.count_pos_iff.mp hp)
        (List.count_pos_iff.mp hp')
  rw [Multiset.count_add, hsum, Multiset.coe_count]
  by_cases hroot : d ∈ cfg.seeds.filterMap Entry.dir?
  · have hnone : ((es.filterMap WalkEvent.processed?).map fun p =>
        ((cfg.listing p).filterMap Entry.dir?).count d).sum = 0 := by
      refine List.sum_eq_zero fun x hx => ?_
      obtain ⟨p, -, rfl⟩ := List.mem_map.mp hx
      exact List.count_eq_zero.mpr (htree.root_not_listed d p hroot)
    have := List.nodup_iff_count_le_one.mp htree.roots_nodup d
    omega
  · rw [List.count_eq_zero.mpr hroot]
    omega

end Run

theorem WalkRun.processed_nodup {cfg : WalkConfig D F} {es : List (WalkEvent D F)}
    {s : Walk D F cfg.walkNthreads} (h : WalkRun cfg es s) (htree : cfg.IsTree) :
    (es.filterMap WalkEvent.processed?).Nodup := by
  induction h with
  | init => exact List.nodup_nil
  | @thread es s e s' t hrun hstep ih =>
    cases he : e.processed? with
    | none => rwa [filterMap_append_singleton, he, Option.toList_none, List.append_nil]
    | some d =>
      -- the step that takes a directory up queues none
      have hpush : e.pushedDir? = none := by
        cases e <;> first | rfl | cases he
      have hnodup := hrun.inv.pushedDir_nodup htree ih
      have hle := (hrun.thread t hstep).inv.processed_le
      rw [filterMap_append_singleton _ _ e, filterMap_append_singleton _ _ e, hpush,
        Option.toList_none, List.append_nil] at hle
      rw [filterMap_append_singleton]
      exact Multiset.coe_nodup.mp (Multiset.nodup_of_le hle (Multiset.coe_nodup.mpr hnodup))
  | interrupt _ _ ih => simpa [List.filterMap_cons] using ih
  | loseBatch _ _ ih => simpa [List.filterMap_cons] using ih
  | refuse _ _ _ _ ih => simpa [List.filterMap_cons] using ih

section Stuck

variable {cfg : WalkConfig D F} {es : List (WalkEvent D F)} {s : Walk D F n}

/-- A thread that cannot step waits for a queue or for the walkers, or has ended. -/
theorem threadStep_eq_none {t : Thread n} (h : s.threadStep cfg t = none) :
    s.awake t = false ∨ s.pc t = .popping ∧ s.walkDirq = [] ∨
      s.pc t = .consuming ∧ s.walkFileq = [] ∨ s.pc t = .exited ∨ s.pc t = .joined ∨
      s.pc t = .joining ∧ ¬ ∀ i, (s.pc (some i)).isExited = true := by
  unfold Walk.threadStep at h
  by_cases hawake : s.awake t = false
  · exact Or.inl hawake
  rw [if_neg hawake] at h
  right
  cases hpc : s.pc t with
  | popping =>
    simp only [hpc] at h
    split at h <;> simp_all
  | consuming =>
    simp only [hpc] at h
    split at h <;> simp_all
  | joining =>
    simp only [hpc] at h
    split_ifs at h with hall
    simpa using hall
  | exited => simp
  | joined => simp
  | listing es => rcases es with - | ⟨- | f | d, es⟩ <;> simp [hpc] at h
  | stopping k => cases k <;> simp [hpc] at h
  | popped d =>
    simp only [hpc] at h
    split_ifs at h
  | starting =>
    simp only [hpc] at h
    split_ifs at h
  | finishing =>
    simp only [hpc] at h
    split_ifs at h
  | _ => simp [hpc] at h

theorem Pc.exits_le_one (p : Pc D F) : p.exits ≤ 1 := by
  cases p <;> simp

theorem Pc.eq_exited {p : Pc D F} (h : p.exits = 1) : p = .exited := by
  cases p <;> simp_all

theorem StopsLast.eq_nil {α : Type*} {l l' : List (Option α)} (h : StopsLast (l ++ l'))
    (hl : 0 < stopsIn l) (hl' : stopsIn l' = 0) : l' = [] := by
  obtain ⟨a, ha, hnone⟩ := List.countP_pos_iff.mp hl
  refine List.eq_nil_iff_forall_not_mem.mpr fun b hb => ?_
  have hb' : b = none := (List.pairwise_append.mp h).2.2 a ha b hb (by simpa using hnone)
  exact absurd hl' (Nat.ne_of_gt (List.countP_pos_iff.mpr ⟨b, hb, by simp [hb']⟩))

/-- When no thread can step, all have ended and both queues are drained. -/
theorem WalkInv.ended_of_stuck (h : WalkInv cfg es s) (hn : 0 < n)
    (hstuck : ∀ t, s.threadStep cfg t = none) :
    (∀ i, s.pc (some i) = .exited) ∧ s.pc none = .joined ∧ s.walkDirq = [] ∧ s.walkFileq = [] ∧
      es.countP WalkEvent.isZero = 1 := by
  have hmain : s.pc none = .consuming ∧ s.walkFileq = [] ∨ s.pc none = .joined ∨
      s.pc none = .joining ∧ ¬ ∀ i, (s.pc (some i)).isExited = true := by
    have hfits := h.fits none
    rcases threadStep_eq_none (hstuck none) with h | ⟨h, -⟩ | h | h | h | h
    · cases h
    · simp [h] at hfits
    · exact Or.inl h
    · simp [h] at hfits
    · exact Or.inr (Or.inl h)
    · exact Or.inr (Or.inr h)
  have hstarted : s.started = n := by
    by_contra hne
    have hseeding := h.seeding (lt_of_le_of_ne h.started hne)
    rcases hmain with ⟨h, -⟩ | h | ⟨h, -⟩ <;> simp [h] at hseeding
  have hwalker (i : Fin n) : s.pc (some i) = .popping ∧ s.walkDirq = [] ∨
      s.pc (some i) = .exited := by
    have hfits := h.fits (some i)
    rcases threadStep_eq_none (hstuck (some i)) with h | h | ⟨h, -⟩ | h | h | ⟨h, -⟩
    · simp [Walk.awake, hstarted] at h
    · exact Or.inl h
    · simp [h] at hfits
    · exact Or.inr h
    · simp [h] at hfits
    · simp [h] at hfits
  have hquiet (φ : Pc D F → ℕ) (hpop : φ .popping = 0) (hexit : φ .exited = 0) :
      ∑ t, φ (s.pc t) = φ (s.pc none) := by
    rw [Fintype.sum_option, Finset.sum_eq_zero, Nat.add_zero]
    intro i _
    rcases hwalker i with ⟨h, -⟩ | h <;> rw [h] <;> assumption
  have hholds : ∑ t, (s.pc t).holds = 0 := by
    rw [hquiet Pc.holds rfl rfl]
    rcases hmain with ⟨h, -⟩ | h | ⟨h, -⟩ <;> simp [h]
  have hstopping : ∑ t, (s.pc t).isStopping = 0 := by
    rw [hquiet Pc.isStopping rfl rfl]
    rcases hmain with ⟨h, -⟩ | h | ⟨h, -⟩ <;> simp [h]
  have hsentinels : ∑ t, (s.pc t).sentinels = 0 := by
    rw [hquiet Pc.sentinels rfl rfl]
    rcases hmain with ⟨h, -⟩ | h | ⟨h, -⟩ <;> simp [h]
  have hexits : ∑ t, (s.pc t).exits = ∑ i, (s.pc (some i)).exits := by
    rw [Fintype.sum_option]
    rcases hmain with ⟨h, -⟩ | h | ⟨h, -⟩ <;> simp [h]
  have hpending := h.pending
  have hzeros := h.zeros
  have hstopF := h.stopping
  have hstopD := h.sentinels
  have hdirs : stopsIn (es.filterMap WalkEvent.poppedDir?) + stopsIn s.walkDirq =
      stopsIn (es.filterMap WalkEvent.pushedDir?) := by rw [← stopsIn_append, h.dirFifo]
  have hfiles : stopsIn (es.filterMap WalkEvent.takenFile?) + stopsIn s.walkFileq =
      stopsIn (es.filterMap WalkEvent.pushedFile?) := by rw [← stopsIn_append, h.fileFifo]
  rw [hholds] at hpending
  rw [hstopping] at hstopF
  rw [hsentinels] at hstopD
  have hdirq : s.walkDirq = [] := by
    by_contra hne
    have hall (i : Fin n) : (s.pc (some i)).exits = 1 := by
      rcases hwalker i with ⟨-, hnil⟩ | h
      · exact absurd hnil hne
      · rw [h]
        rfl
    have hexit := h.exits
    rw [hexits, Finset.sum_congr rfl fun i _ => hall i, Finset.sum_const, Finset.card_univ,
      Fintype.card_fin, smul_eq_mul, Nat.mul_one] at hexit
    -- every sentinel of the directory queue has been taken, and no directory is left in it
    have hone : es.countP WalkEvent.isZero = 1 := by
      have := h.zeros_le_one
      rcases Nat.lt_or_ge (es.countP WalkEvent.isZero) 1 with hlt | hge
      · rw [Nat.lt_one_iff.mp hlt] at hstopD
        omega
      · omega
    have hzero : s.walkDirPending = 0 := by
      by_contra hpos
      rw [if_neg hpos] at hzeros
      omega
    rw [hone] at hstopD
    have hlen : s.walkDirq.length = dirsIn s.walkDirq + stopsIn s.walkDirq := by
      rw [dirsIn, stopsIn, List.length_eq_countP_add_countP Option.isSome]
      exact congrArg _ (List.countP_congr fun x _ => by simp)
    have hlen' : 0 < s.walkDirq.length := List.length_pos_iff.mpr hne
    omega
  have hone : es.countP WalkEvent.isZero = 1 := by
    rw [hdirq] at hpending
    rw [hzeros, if_pos (by simpa using hpending)]
  have hall (i : Fin n) : s.pc (some i) = .exited := by
    refine Pc.eq_exited (le_antisymm (Pc.exits_le_one _) ?_)
    have hexit := h.exits
    rw [hexits] at hexit
    rw [hdirq, stopsIn_nil] at hdirs
    rw [hone] at hstopD
    by_contra! hlt
    have hsum : ∑ j, (s.pc (some j)).exits < ∑ _j : Fin n, 1 :=
      Finset.sum_lt_sum (fun j _ => Pc.exits_le_one _) ⟨i, Finset.mem_univ i, hlt⟩
    rw [Finset.sum_const, Finset.card_univ, Fintype.card_fin, smul_eq_mul] at hsum
    omega
  have hjoins : (s.pc none).joins = stopsIn (es.filterMap WalkEvent.takenFile?) := by
    rw [← h.joins, hquiet Pc.joins rfl rfl]
  have hjoined : s.pc none = .joined := by
    rcases hmain with ⟨hpc, hnil⟩ | hpc | ⟨-, hnot⟩
    · rw [hpc] at hjoins
      rw [hnil, stopsIn_nil] at hfiles
      simp only [Pc.joins] at hjoins
      omega
    · exact hpc
    · exact absurd (fun i => by rw [hall i]; rfl) hnot
  refine ⟨hall, hjoined, hdirq, ?_, hone⟩
  rw [hjoined] at hjoins
  simp only [Pc.joins] at hjoins
  exact StopsLast.eq_nil (h.fileFifo ▸ h.fileOrder) (by omega) (by omega)

end Stuck

@[simp] def Entry.cost (c : D → ℕ) : Entry D F → ℕ
  | .skip => 1
  | .file _ => 4
  | .dir d => 2 + c d

def listingCost (c : D → ℕ) (es : List (Entry D F)) : ℕ := (es.map (Entry.cost c)).sum

@[simp] theorem listingCost_nil (c : D → ℕ) : listingCost c ([] : List (Entry D F)) = 0 := rfl

@[simp] theorem listingCost_cons (c : D → ℕ) (e : Entry D F) (es : List (Entry D F)) :
    listingCost c (e :: es) = e.cost c + listingCost c es := List.sum_cons

def WalkConfig.IsCost (cfg : WalkConfig D F) (c : D → ℕ) : Prop :=
  ∀ d, c d = 5 + listingCost c (cfg.listing d)

def Pc.cost (c : D → ℕ) : Pc D F → ℕ
  | .popped d => c d - 1
  | .listing es => 3 + listingCost c es
  | .accepted _ es => 6 + listingCost c es
  | .raised d es => 4 + c d + listingCost c es
  | .starting => 2
  | .finishing | .taken _ | .joining => 1
  | .stopping k => 2 * k + 4
  | _ => 0

@[simp] def dirCost (c : D → ℕ) : Option D → ℕ
  | none => 1
  | some d => c d

def unset (flag : Bool) : ℕ := (!flag).toNat

def Walk.cost (c : D → ℕ) (s : Walk D F n) : ℕ :=
  (s.walkDirq.map (dirCost c)).sum + 2 * s.walkFileq.length + (n - s.started) +
    unset s.interrupted + unset s.walkAbort + unset s.batchLost

section Cost

variable {cfg : WalkConfig D F} {s s' : Walk D F n} {t : Thread n} {e : WalkEvent D F} {c : D → ℕ}

theorem WalkConfig.exists_isCost (h : cfg.Acyclic) : ∃ c, cfg.IsCost c := by
  refine ⟨h.fix fun d c => 5 + ((cfg.listing d).attach.map fun e => match e with
    | ⟨.skip, _⟩ => 1
    | ⟨.file _, _⟩ => 4
    | ⟨.dir d', hd'⟩ => 2 + c d' hd').sum, fun d => ?_⟩
  conv_lhs => rw [h.fix_eq]
  rw [listingCost, ← List.attach_map_val (l := cfg.listing d)]
  refine congrArg (5 + List.sum ·) (List.map_congr_left ?_)
  rintro ⟨- | f | d', hd'⟩ - <;> rfl

/-- Every step of a thread uses up part of the cost; the sentinels are paid for when the counter
reaches zero. -/
theorem threadStep_cost (h : s.threadStep cfg t = some (e, s')) (hc : cfg.IsCost c) :
    ∃ p, s'.pc = Function.update s.pc t p ∧ p.cost c + s'.cost c + 1 ≤
      (s.pc t).cost c + s.cost c + if e.isZero then 2 * n + 4 else 0 := by
  unfold Walk.threadStep at h
  by_cases hawake : s.awake t = false
  · rw [if_pos hawake] at h
    cases h
  rw [if_neg hawake] at h
  cases hpc : s.pc t with
  | popping =>
    simp only [hpc] at h
    split at h
    · cases h
    next q hq =>
      cases h
      exact ⟨.exited, rfl, by simp [Walk.goto, Walk.cost, Pc.cost, hq]⟩
    next d q hq =>
      cases h
      have hd := hc d
      exact ⟨.popped d, rfl, by simp [Walk.goto, Walk.cost, Pc.cost, hq]; omega⟩
  | popped d =>
    simp only [hpc] at h
    have hd := hc d
    split_ifs at h <;> cases h
    · exact ⟨.listing (cfg.listing d), rfl, by simp [Walk.goto, Walk.cost, Pc.cost]; omega⟩
    · exact ⟨.finishing, rfl, by simp [Walk.goto, Walk.cost, Pc.cost]; omega⟩
  | listing es =>
    simp only [hpc] at h
    rcases es with - | ⟨- | f | d, es⟩ <;> cases h
    · exact ⟨Walk.afterListing t, rfl, by
        cases t <;> simp [Walk.goto, Walk.cost, Walk.afterListing, Pc.cost]⟩
    · exact ⟨.listing es, rfl, by simp [Walk.goto, Walk.cost, Pc.cost]⟩
    · exact ⟨.accepted f es, rfl, by simp [Walk.goto, Walk.cost, Pc.cost]; omega⟩
    · exact ⟨.raised d es, rfl, by simp [Walk.goto, Walk.cost, Pc.cost]; omega⟩
  | accepted f es =>
    simp only [hpc] at h
    cases h
    exact ⟨.listing es, rfl, by simp [Walk.goto, Walk.cost, Pc.cost]; omega⟩
  | raised d es =>
    simp only [hpc] at h
    cases h
    exact ⟨.listing es, rfl, by simp [Walk.goto, Walk.cost, Pc.cost]; omega⟩
  | starting =>
    simp only [hpc] at h
    split_ifs at h with hlt <;> cases h
    · exact ⟨.starting, by simp [← hpc], by simp [Walk.cost, Pc.cost]; omega⟩
    · exact ⟨.finishing, rfl, by simp [Walk.goto, Walk.cost, Pc.cost]⟩
  | finishing =>
    simp only [hpc] at h
    split_ifs at h <;> cases h
    · exact ⟨.stopping n, rfl, by simp [Walk.goto, Walk.cost, Pc.cost]; omega⟩
    · exact ⟨Walk.afterFinished t, rfl, by
        cases t <;> simp [Walk.goto, Walk.cost, Walk.afterFinished, Pc.cost]⟩
  | stopping k =>
    simp only [hpc] at h
    cases k with
    | zero =>
      cases h
      exact ⟨Walk.afterFinished t, rfl, by
        cases t <;> simp [Walk.goto, Walk.cost, Walk.afterFinished, Pc.cost] <;> omega⟩
    | succ k =>
      cases h
      exact ⟨.stopping k, rfl, by simp [Walk.goto, Walk.cost, Pc.cost]; omega⟩
  | exited =>
    simp only [hpc] at h
    cases h
  | consuming =>
    simp only [hpc] at h
    split at h
    · cases h
    next q hq =>
      cases h
      exact ⟨.joining, rfl, by simp [Walk.goto, Walk.cost, Pc.cost, hq]; omega⟩
    next f q hq =>
      cases h
      exact ⟨.taken f, rfl, by simp [Walk.goto, Walk.cost, Pc.cost, hq]; omega⟩
  | taken f =>
    simp only [hpc] at h
    cases h
    exact ⟨.consuming, rfl, by simp [Walk.goto, Walk.cost, Pc.cost]⟩
  | joining =>
    simp only [hpc] at h
    split_ifs at h
    cases h
    exact ⟨.joined, rfl, by simp [Walk.goto, Walk.cost, Pc.cost]⟩
  | joined =>
    simp only [hpc] at h
    cases h

end Cost

theorem WalkRun.length_le {cfg : WalkConfig D F} {c : D → ℕ} (hc : cfg.IsCost c)
    {es : List (WalkEvent D F)} {s : Walk D F cfg.walkNthreads} (h : WalkRun cfg es s) :
    es.length + ∑ t, (s.pc t).cost c + s.cost c ≤
      3 + listingCost c cfg.seeds + cfg.walkNthreads + 3 +
        (2 * cfg.walkNthreads + 4) * es.countP WalkEvent.isZero := by
  induction h with
  | init => simp [Walk.init, Walk.cost, Pc.cost, unset, Fintype.sum_option]; omega
  | @thread es s e s' t hrun hstep ih =>
    obtain ⟨p, hpc, hle⟩ := threadStep_cost hstep hc
    have hsum := Threads.sum_update (Pc.cost c) s.pc t p
    rw [← hpc] at hsum
    rw [List.length_append, List.length_singleton, List.countP_append, List.countP_singleton,
      Nat.mul_add, mul_ite, Nat.mul_one, Nat.mul_zero]
    omega
  | interrupt _ hfirst ih =>
    simp only [Walk.cost, hfirst, List.length_append, List.countP_append] at ih ⊢
    simp [unset] at ih ⊢
    omega
  | loseBatch _ hfirst ih =>
    simp only [Walk.cost, hfirst, List.length_append, List.countP_append] at ih ⊢
    simp [unset] at ih ⊢
    omega
  | refuse _ _ _ hfirst ih =>
    simp only [Walk.cost, hfirst, List.length_append, List.countP_append] at ih ⊢
    simp [unset] at ih ⊢
    omega

structure StopProtocol (cfg : WalkConfig D F) (es : List (WalkEvent D F))
    (s : Walk D F cfg.walkNthreads) : Prop where
  zero_once : ∀ es₁ es₂, es = es₁ ++ .zero :: es₂ →
    es₁.countP WalkEvent.isZero = 0 ∧ es₂.countP WalkEvent.isZero = 0
  /-- At zero every file accepted is on the file queue. -/
  all_queued : ∀ es₁ es₂, es = es₁ ++ .zero :: es₂ →
    (es₁.filterMap WalkEvent.accepted?).Perm (es₁.filterMap WalkEvent.pushedFile?).reduceOption
  none_after : ∀ es₁ es₂, es = es₁ ++ .zero :: es₂ →
    es₂.filterMap WalkEvent.accepted? = [] ∧
      (es₂.filterMap WalkEvent.pushedFile?).reduceOption = [] ∧
      (es₂.filterMap WalkEvent.pushedDir?).reduceOption = []
  fileStop_last : ∃ (files : List F) (k : ℕ), k ≤ 1 ∧
    es.filterMap WalkEvent.pushedFile? = files.map some ++ List.replicate k none
  dirStops_last : ∃ (dirs : List D) (k : ℕ), k ≤ cfg.walkNthreads ∧
    es.filterMap WalkEvent.pushedDir? = dirs.map some ++ List.replicate k none
  /-- The consumer takes what was queued, in order and each item once. -/
  takes : es.filterMap WalkEvent.takenFile? <+: es.filterMap WalkEvent.pushedFile?
  pops : es.filterMap WalkEvent.poppedDir? <+: es.filterMap WalkEvent.pushedDir?
  /-- A directory is processed no more often than it was queued. -/
  processed_le : (es.filterMap WalkEvent.processed? : Multiset D) ≤
    ((es.filterMap WalkEvent.pushedDir?).reduceOption : Multiset D)
  processed_nodup : cfg.IsTree → (es.filterMap WalkEvent.processed?).Nodup
  /-- When no thread can go on, all have ended: the counter has been at zero once, every queued
  item has been taken and every sentinel pushed. -/
  ended : (∀ t, s.threadStep cfg t = none) →
    (∀ i, s.pc (some i) = .exited) ∧ s.pc none = .joined ∧ s.walkDirq = [] ∧ s.walkFileq = [] ∧
      es.countP WalkEvent.isZero = 1 ∧
      (∃ files : List F, es.filterMap WalkEvent.pushedFile? = files.map some ++ [none] ∧
        es.filterMap WalkEvent.takenFile? = files.map some ++ [none] ∧
        files.Perm (es.filterMap WalkEvent.accepted?)) ∧
      ∃ dirs : List D, es.filterMap WalkEvent.pushedDir? =
          dirs.map some ++ List.replicate cfg.walkNthreads none ∧
        es.filterMap WalkEvent.poppedDir? = dirs.map some ++ List.replicate cfg.walkNthreads none

section Protocol

variable {cfg : WalkConfig D F} {es : List (WalkEvent D F)} {s : Walk D F cfg.walkNthreads}

theorem WalkRun.last {e : WalkEvent D F} (h : WalkRun cfg (es ++ [e]) s) :
    ∃ s₀ t p, WalkRun cfg es s₀ ∧ StepSpec cfg s₀ t e p s := by
  generalize hl : es ++ [e] = l at h
  cases h with
  | init => simp at hl
  | thread t hrun hstep =>
    obtain ⟨rfl, hlast⟩ := List.append_inj' hl rfl
    obtain rfl := List.singleton_inj.mp hlast
    obtain ⟨p, hs⟩ := threadStep_spec hstep
    exact ⟨_, t, p, hrun, hs⟩
  | interrupt hrun _ =>
    obtain ⟨rfl, hlast⟩ := List.append_inj' hl rfl
    obtain rfl := List.singleton_inj.mp hlast
    exact ⟨_, none, _, hrun, .of_pc_eq rfl rfl rfl rfl rfl⟩
  | loseBatch hrun _ =>
    obtain ⟨rfl, hlast⟩ := List.append_inj' hl rfl
    obtain rfl := List.singleton_inj.mp hlast
    exact ⟨_, none, _, hrun, .of_pc_eq rfl rfl rfl rfl rfl⟩
  | refuse _ hrun _ _ =>
    obtain ⟨rfl, hlast⟩ := List.append_inj' hl rfl
    obtain rfl := List.singleton_inj.mp hlast
    exact ⟨_, none, _, hrun, .of_pc_eq rfl rfl rfl rfl rfl⟩

/-- The step that made one event of the record. -/
theorem WalkRun.split {e : WalkEvent D F} {es₂ : List (WalkEvent D F)}
    (h : WalkRun cfg (es ++ e :: es₂) s) :
    ∃ s₁ t p s₂, WalkRun cfg es s₁ ∧ StepSpec cfg s₁ t e p s₂ ∧ WalkRun cfg (es ++ [e]) s₂ := by
  induction es₂ using List.reverseRecOn generalizing s with
  | nil =>
    obtain ⟨s₁, t, p, hrun, hs⟩ := h.last
    exact ⟨s₁, t, p, s, hrun, hs, h⟩
  | append_singleton es₂ e₂ ih =>
    rw [← List.cons_append, ← List.append_assoc] at h
    obtain ⟨s₁, -, -, hrun, -⟩ := h.last
    exact ih hrun

/-- Once the counter has been at zero, nothing is accepted and only sentinels are queued. -/
theorem WalkRun.quiet_after {es₁ es₂ : List (WalkEvent D F)}
    (h : WalkRun cfg (es₁ ++ .zero :: es₂) s) {e : WalkEvent D F} (he : e ∈ es₂) :
    e.accepted? = none ∧ (∀ f, e.pushedFile? ≠ some (some f)) ∧
      ∀ d, e.pushedDir? ≠ some (some d) := by
  obtain ⟨a, b, rfl⟩ := List.append_of_mem he
  rw [← List.cons_append, ← List.append_assoc] at h
  obtain ⟨s₁, t, p, s₂, hrun, hs, -⟩ := h.split
  have hzero : 0 < (es₁ ++ .zero :: a).countP WalkEvent.isZero :=
    List.countP_pos_iff.mpr ⟨.zero, by simp, rfl⟩
  have hholds := hrun.inv.holds_eq_zero hzero t
  refine ⟨?_, fun f hf => ?_, fun d hd => ?_⟩
  · by_contra hne
    have := hs.accepting (Option.ne_none_iff_exists'.mp hne)
    omega
  · have := hs.queueing (Or.inl ⟨f, hf⟩)
    omega
  · have := hs.queueing (Or.inr ⟨d, hd⟩)
    omega

theorem reduceOption_filterMap_eq_nil {α β : Type*} {g : α → Option (Option β)} {l : List α}
    (h : ∀ a ∈ l, ∀ b, g a ≠ some (some b)) : (l.filterMap g).reduceOption = [] := by
  refine List.eq_nil_iff_forall_not_mem.mpr fun b hb => ?_
  obtain ⟨a, ha, hg⟩ := List.mem_filterMap.mp (List.reduceOption_mem_iff.mp hb)
  exact h a ha b hg

theorem WalkRun.stopProtocol (h : WalkRun cfg es s) : StopProtocol cfg es s := by
  have hinv := h.inv
  have hzeros := hinv.zeros_le_one
  have hstopF := hinv.stopping
  have hstopD := hinv.sentinels
  constructor
  case zero_once =>
    rintro es₁ es₂ rfl
    rw [List.countP_append, List.countP_cons_of_pos rfl] at hzeros
    omega
  case all_queued =>
    rintro es₁ es₂ rfl
    obtain ⟨-, -, -, s₂, -, -, hrun⟩ := h.split
    have hone : 0 < (es₁ ++ [WalkEvent.zero]).countP WalkEvent.isZero :=
      List.countP_pos_iff.mpr ⟨.zero, by simp, rfl⟩
    have hhand : ∑ t, (s₂.pc t).inHand = 0 :=
      Finset.sum_eq_zero fun t _ => Pc.inHand_eq_zero (hrun.inv.holds_eq_zero hone t)
    have hacc := hrun.inv.accepted
    rw [hhand, add_zero, filterMap_append_singleton, filterMap_append_singleton] at hacc
    simpa using hacc
  case none_after =>
    rintro es₁ es₂ rfl
    refine ⟨?_, ?_, ?_⟩
    · exact List.filterMap_eq_nil_iff.mpr fun e he => (h.quiet_after he).1
    · exact reduceOption_filterMap_eq_nil fun e he => (h.quiet_after he).2.1
    · exact reduceOption_filterMap_eq_nil fun e he => (h.quiet_after he).2.2
  case fileStop_last => exact ⟨_, _, by omega, hinv.fileOrder.eq_append⟩
  case dirStops_last =>
    refine ⟨_, _, ?_, hinv.dirOrder.eq_append⟩
    have := Nat.mul_le_mul_left cfg.walkNthreads hzeros
    omega
  case takes => exact ⟨_, hinv.fileFifo⟩
  case pops => exact ⟨_, hinv.dirFifo⟩
  case processed_le => exact hinv.processed_le
  case processed_nodup => exact h.processed_nodup
  case ended =>
    intro hstuck
    obtain ⟨hwalkers, hmain, hdirq, hfileq, hone⟩ :=
      hinv.ended_of_stuck cfg.walkNthreads_pos hstuck
    have hpc (φ : Pc D F → ℕ) (hexit : φ .exited = 0) (hjoin : φ .joined = 0) :
        ∑ t, φ (s.pc t) = 0 := by
      rw [Fintype.sum_option, hmain, hjoin,
        Finset.sum_eq_zero (fun i _ => by rw [hwalkers i, hexit]), add_zero]
    have hquiet := hinv.holds_eq_zero (by rw [hone]; exact Nat.one_pos)
    have hhand : ∑ t, (s.pc t).inHand = 0 :=
      Finset.sum_eq_zero fun t _ => Pc.inHand_eq_zero (hquiet t)
    have hacc := hinv.accepted
    rw [hhand, add_zero] at hacc
    rw [hpc Pc.isStopping rfl rfl, hone, Nat.zero_add] at hstopF
    rw [hpc Pc.sentinels rfl rfl, hone, Nat.zero_add, Nat.mul_one] at hstopD
    have hfiles := hinv.fileOrder.eq_append
    have hdirs := hinv.dirOrder.eq_append
    have hfifo := hinv.fileFifo
    have hdfifo := hinv.dirFifo
    rw [hstopF] at hfiles
    rw [hstopD] at hdirs
    rw [hfileq, List.append_nil] at hfifo
    rw [hdirq, List.append_nil] at hdfifo
    exact ⟨hwalkers, hmain, hdirq, hfileq, hone,
      ⟨_, hfiles, hfifo.trans hfiles, (Multiset.coe_eq_coe.mp hacc).symm⟩,
      _, hdirs, hdfifo.trans hdirs⟩

end Protocol

/-- Every interleaving of seeding, walkers and consumer, with an interrupt, a lost batch or an
unusable filesystem at any point, keeps the stop protocol and comes to an end. -/
theorem walk_stop_protocol (cfg : WalkConfig D F) (hacyclic : cfg.Acyclic) :
    (∃ bound, ∀ es s, WalkRun cfg es s → es.length ≤ bound) ∧
      ∀ es s, WalkRun cfg es s → StopProtocol cfg es s := by
  refine ⟨?_, fun es s h => h.stopProtocol⟩
  obtain ⟨c, hc⟩ := WalkConfig.exists_isCost hacyclic
  refine ⟨6 + listingCost c cfg.seeds + cfg.walkNthreads + (2 * cfg.walkNthreads + 4),
    fun es s h => ?_⟩
  have hle := h.length_le hc
  have hzeros := Nat.mul_le_mul_left (2 * cfg.walkNthreads + 4) h.inv.zeros_le_one
  omega

/-- Let the threads of a schedule step in turn, those that wait passed over. -/
def WalkConfig.schedule (cfg : WalkConfig D F) (ts : List (Thread cfg.walkNthreads)) :
    List (WalkEvent D F) × Walk D F cfg.walkNthreads :=
  ts.foldl (fun r t => match r.2.threadStep cfg t with
    | none => r
    | some (e, s) => (r.1 ++ [e], s)) ([], .init cfg)

theorem WalkConfig.schedule_run (cfg : WalkConfig D F) (ts : List (Thread cfg.walkNthreads)) :
    WalkRun cfg (cfg.schedule ts).1 (cfg.schedule ts).2 := by
  unfold schedule
  generalize hr : (([], .init cfg) : List (WalkEvent D F) × Walk D F cfg.walkNthreads) = r
  have hrun : WalkRun cfg r.1 r.2 := hr ▸ WalkRun.init
  clear hr
  induction ts generalizing r with
  | nil => exact hrun
  | cons t ts ih =>
    rw [List.foldl_cons]
    refine ih _ ?_
    split
    · exact hrun
    next hstep => exact hrun.thread t hstep

def twoDirs : WalkConfig ℕ ℕ where
  ioThreads := 2
  roots := [.dir 0]
  checkpointed := [12]
  listing
    | 0 => [.file 10, .skip, .dir 1]
    | 1 => [.file 11]
    | _ => []

theorem acyclic_twoDirs : twoDirs.Acyclic := by
  refine Subrelation.wf (fun {d' d} h => ?_) (measure fun d => 2 - d).wf
  change 2 - d' < 2 - d
  rcases d with - | - | d <;> simp [twoDirs] at h; omega

theorem walk_stop_protocol_twoDirs :
    let r := twoDirs.schedule
      (List.replicate 25 [some ⟨1, by decide⟩, none, some ⟨0, by decide⟩]).flatten
    (∀ t, (r.2.threadStep twoDirs t).isNone = true) ∧
      r.1.filterMap WalkEvent.takenFile? = [some 12, some 10, some 11, none] ∧
      StopProtocol twoDirs r.1 r.2 :=
  ⟨by decide +kernel, by decide +kernel, (walk_stop_protocol twoDirs acyclic_twoDirs).2 _ _
    (twoDirs.schedule_run _)⟩

def nestedRoots : WalkConfig ℕ ℕ where
  ioThreads := 2
  roots := [.dir 0, .dir 1]
  checkpointed := []
  listing
    | 0 => [.dir 1]
    | 1 => [.file 11]
    | _ => []

theorem acyclic_nestedRoots : nestedRoots.Acyclic := by
  refine Subrelation.wf (fun {d' d} h => ?_) (measure fun d => 2 - d).wf
  change 2 - d' < 2 - d
  rcases d with - | - | d <;> simp [nestedRoots] at h; omega

/-- The root below the other one is queued as a root and where it is listed, and nothing tells the
two apart. -/
theorem nestedRoots_processed_twice : nestedRoots.Acyclic ∧ ∃ es s, WalkRun nestedRoots es s ∧
    es.filterMap WalkEvent.processed? = [0, 1, 1] ∧
    ¬ (es.filterMap WalkEvent.processed?).Nodup := by
  have htwice : (nestedRoots.schedule
      (List.replicate 25 [some ⟨1, by decide⟩, none, some ⟨0, by decide⟩]).flatten).1.filterMap
        WalkEvent.processed? = [0, 1, 1] := by decide +kernel
  refine ⟨acyclic_nestedRoots, _, _, nestedRoots.schedule_run _, htwice, ?_⟩
  rw [htwice]
  decide

end Oans
