import Oans.LinkedQueue
import Oans.Threads

/-!
# The hashing queue

Files wait in one linked list for each size class, with a mask of the classes in use. The one
consumer pushes, workers pop, and a drain after the last push lets them leave. Each step below is
one critical section, a wait or the end of one, so every interleaving is a sequence of steps; a
signal wakes a sleeping worker if there is one, and a worker may wake without any.
-/

namespace Oans

open LinkedQueue

def SCAN_BUCKET_FLOOR_LOG2 : ℕ := 20

def SCAN_NBUCKETS : ℕ := 64

def highestSetBit (x : BitVec 64) : ℕ := x.toNat.log2

def scanBucket (size : BitVec 64) : ℕ :=
  if size.toNat < 2 ^ SCAN_BUCKET_FLOOR_LOG2 then 0
  else highestSetBit size - (SCAN_BUCKET_FLOOR_LOG2 - 1)

theorem scanBucket_lt (size : BitVec 64) : scanBucket size < SCAN_NBUCKETS := by
  unfold scanBucket SCAN_NBUCKETS
  split_ifs with hfloor
  · decide
  · have hlt : highestSetBit size < 64 := by
      rw [highestSetBit, Nat.log2_lt]
      · exact size.isLt
      · rintro hzero
        simp [hzero] at hfloor
    omega

structure QueuedFile where
  filesize : BitVec 64
  resumeOff : BitVec 64
  deriving DecidableEq, Repr

def QueuedFile.bucket (file : QueuedFile) : ℕ := scanBucket (file.filesize - file.resumeOff)

structure ScanWorkq (F : Type*) where
  next : F → Option F
  head : ℕ → Option F
  tail : ℕ → Option F
  occupied : BitVec 64
  draining : Bool

namespace ScanWorkq

variable {F : Type*} [DecidableEq F]

def link (q : ScanWorkq F) (next : F → Option F) (head : ℕ → Option F) (b : ℕ) (file : F) :
    ScanWorkq F :=
  { q with
    next := next
    head := head
    tail := Function.update q.tail b (some file)
    occupied := q.occupied ||| 1#64 <<< b }

/-- `scan_workq_push()` of a file of class `b`, up to the signal: nothing where it crashes. -/
def push (q : ScanWorkq F) (b : ℕ) (file : F) : Option (ScanWorkq F) :=
  let next := Function.update q.next file none
  if q.occupied &&& 1#64 <<< b ≠ 0 then
    (q.tail b).map fun t => q.link (Function.update next t (some file)) q.head b file
  else some (q.link next (Function.update q.head b (some file)) b file)

end ScanWorkq

/-- What `scan_workq_pop()` does with the lock held: wait, return NULL, crash, or take a file. -/
inductive ScanPop (F : Type*)
  | wait
  | null
  | crash
  | file (f : F) (q : ScanWorkq F)

def ScanWorkq.pop {F : Type*} [DecidableEq F] (q : ScanWorkq F) : ScanPop F :=
  if q.occupied = 0 ∧ q.draining = false then .wait
  else if q.occupied = 0 then .null
  else
    let b := highestSetBit q.occupied
    match q.head b with
    | none => .crash
    | some file =>
      let q' := { q with head := Function.update q.head b (q.next file) }
      .file file <|
        if q'.head b = none then
          { q' with
            tail := Function.update q'.tail b none
            occupied := q'.occupied &&& ~~~(1#64 <<< b) }
        else q'

inductive WorkerPc (F : Type*)
  /-- About to take the lock in `scan_workq_pop()`. -/
  | popping
  /-- In `g_cond_wait()`. -/
  | asleep
  | holding (file : F)
  | exited
  | crashed
  deriving DecidableEq, Repr

/-- What a worker may be found at: none has crashed, only a drained empty queue is left, and none
sleeps after the drain. -/
def WorkerPc.Ok {F : Type*} (draining : Bool) (queued : List F) : WorkerPc F → Prop
  | .crashed => False
  | .exited => draining = true ∧ queued = []
  | .asleep => draining = false
  | _ => True

structure ScanState (ι F : Type*) where
  q : ScanWorkq F
  workers : ι → WorkerPc F
  pushed : List F
  popped : List F

namespace ScanState

variable {ι F : Type*} [DecidableEq ι] [DecidableEq F]

def start (next : F → Option F) : ScanState ι F where
  q := ⟨next, fun _ => none, fun _ => none, 0, false⟩
  workers _ := .popping
  pushed := []
  popped := []

def setWorker (s : ScanState ι F) (w : ι) (pc : WorkerPc F) : ScanState ι F :=
  { s with workers := Function.update s.workers w pc }

def Signals (s : ScanState ι F) : Option ι → Prop
  | none => ∀ w, s.workers w ≠ .asleep
  | some w => s.workers w = .asleep

/-- A push with the worker it wakes. -/
def push (file : F → QueuedFile) (s : ScanState ι F) (f : F) (woken : Option ι) :
    Option (ScanState ι F) :=
  (s.q.push (file f).bucket f).map fun q =>
    { q := q
      workers := fun w => if woken = some w then .popping else s.workers w
      pushed := s.pushed ++ [f]
      popped := s.popped }

def drain (s : ScanState ι F) : ScanState ι F :=
  { s with
    q := { s.q with draining := true }
    workers := fun w => if s.workers w = .asleep then .popping else s.workers w }

def take (s : ScanState ι F) (w : ι) (f : F) (q : ScanWorkq F) : ScanState ι F where
  q := q
  workers := Function.update s.workers w (.holding f)
  pushed := s.pushed
  popped := s.popped ++ [f]

def workerStep (s : ScanState ι F) (w : ι) : Option (ScanState ι F) :=
  match s.workers w with
  | .popping =>
    match s.q.pop with
    | .wait => some (s.setWorker w .asleep)
    | .null => some (s.setWorker w .exited)
    | .crash => some (s.setWorker w .crashed)
    | .file f q => some (s.take w f q)
  | .holding _ => some (s.setWorker w .popping)
  | _ => none

/-- A file is pushed once, and none after the drain. -/
inductive Step (file : F → QueuedFile) : ScanState ι F → ScanState ι F → Prop
  | push {s s' f woken} (hopen : s.q.draining = false) (hnew : f ∉ s.pushed)
      (hsignal : s.Signals woken) (h : s.push file f woken = some s') : Step file s s'
  | drain {s} (hopen : s.q.draining = false) : Step file s s.drain
  | worker {s s' w} (h : s.workerStep w = some s') : Step file s s'
  | spurious {s w} (h : s.workers w = .asleep) : Step file s (s.setWorker w .popping)

inductive Reachable (file : F → QueuedFile) : ScanState ι F → Prop
  | start (next : F → Option F) : Reachable file (.start next)
  | step {s s'} (h : Reachable file s) (hstep : Step file s s') : Reachable file s'

def queued (s : ScanState ι F) : List F := s.pushed.filter fun f => decide (f ∉ s.popped)

end ScanState

section Bits

theorem getLsbD_bit {b c : ℕ} (hb : b < 64) : (1#64 <<< b).getLsbD c = decide (c = b) := by
  rw [BitVec.getLsbD_shiftLeft, BitVec.getLsbD_one]
  by_cases hcb : c = b
  · simp [hcb, hb]
  · by_cases hlt : c < b
    · simp [hlt, hcb]
    · have hne : ¬ c - b = 0 := by omega
      simp [hne, hcb]

theorem and_bit_ne_zero_iff {x : BitVec 64} {b : ℕ} (hb : b < 64) :
    x &&& 1#64 <<< b ≠ 0 ↔ x.getLsbD b = true := by
  constructor
  · intro hne
    by_contra hbit
    rw [Bool.not_eq_true] at hbit
    refine hne (BitVec.eq_of_getLsbD_eq fun c hc => ?_)
    rw [BitVec.getLsbD_and, getLsbD_bit hb]
    by_cases hcb : c = b
    · simp [hcb, hbit]
    · simp [hcb]
  · intro hbit hzero
    have hand : (x &&& 1#64 <<< b).getLsbD b = (0 : BitVec 64).getLsbD b := by rw [hzero]
    rw [BitVec.getLsbD_and, getLsbD_bit hb, hbit] at hand
    simp at hand

theorem getLsbD_or_bit {x : BitVec 64} {b c : ℕ} (hb : b < 64) :
    (x ||| 1#64 <<< b).getLsbD c = (x.getLsbD c || decide (c = b)) := by
  rw [BitVec.getLsbD_or, getLsbD_bit hb]

theorem getLsbD_clear_bit {x : BitVec 64} {b c : ℕ} (hb : b < 64) :
    (x &&& ~~~(1#64 <<< b)).getLsbD c = (x.getLsbD c && !decide (c = b)) := by
  rw [BitVec.getLsbD_and, BitVec.getLsbD_not, getLsbD_bit hb]
  by_cases hc : c < 64
  · simp [hc]
  · rw [BitVec.getLsbD_of_ge _ _ (by omega)]
    simp

theorem highestSetBit_spec {x : BitVec 64} (hx : x ≠ 0) :
    x.getLsbD (highestSetBit x) = true ∧ ∀ b, x.getLsbD b = true → b ≤ highestSetBit x := by
  have hne : x.toNat ≠ 0 := fun h => hx (BitVec.eq_of_toNat_eq h)
  refine ⟨Nat.testBit_log2 hne, fun b hb => ?_⟩
  by_contra hgt
  have hlt : x.toNat < 2 ^ b := (Nat.log2_lt hne).mp (by simpa [highestSetBit] using hgt)
  have hfalse := Nat.testBit_lt_two_pow hlt
  rw [BitVec.getLsbD] at hb
  rw [hb] at hfalse
  cases hfalse

end Bits

section Queue

variable {F : Type*} [DecidableEq F]

structure ScanWorkq.Holds (cls : F → ℕ) (q : ScanWorkq F) (l : List F) : Prop where
  buckets : ∀ b, IsQueue q.next (q.head b) (q.tail b) (l.filter fun f => decide (cls f = b))
  occupied : ∀ b, q.occupied.getLsbD b = true ↔ l.filter (fun f => decide (cls f = b)) ≠ []

def OldestOfHighest (cls : F → ℕ) (l : List F) (f : F) : Prop :=
  ∃ before after, l = before ++ f :: after ∧ (∀ g ∈ before, cls g < cls f) ∧
    ∀ g ∈ after, cls g ≤ cls f

omit [DecidableEq F] in
theorem OldestOfHighest.mem {cls : F → ℕ} {l : List F} {f : F} (h : OldestOfHighest cls l f) :
    f ∈ l := by
  obtain ⟨before, after, rfl, -⟩ := h
  exact List.mem_append_right _ List.mem_cons_self

namespace ScanWorkq.Holds

variable {cls : F → ℕ} {q : ScanWorkq F} {l : List F}

omit [DecidableEq F] in
/-- Linking a file in behind the others of its class; the lists of other classes share no node
with that one. -/
theorem link (h : q.Holds cls l) {f : F} (hcls : cls f < 64) {next : F → Option F}
    {head : ℕ → Option F}
    (hself : IsQueue next (head (cls f)) (some f)
      (l.filter (fun g => decide (cls g = cls f)) ++ [f]))
    (hnext : ∀ g, cls g ≠ cls f → next g = q.next g) (hhead : ∀ b, b ≠ cls f → head b = q.head b) :
    (q.link next head (cls f) f).Holds cls (l ++ [f]) where
  buckets b := by
    rw [List.filter_append]
    by_cases hb : b = cls f
    · subst hb
      simpa [ScanWorkq.link] using hself
    · have hkeep : IsQueue next (q.head b) (q.tail b) (l.filter fun g => decide (cls g = b)) := by
        refine (h.buckets b).congr fun g hg => hnext g ?_
        rw [List.mem_filter, decide_eq_true_eq] at hg
        exact fun heq => hb (hg.2.symm.trans heq)
      simpa [ScanWorkq.link, hhead b hb, Function.update_of_ne hb, Ne.symm hb] using hkeep
  occupied b := by
    rw [ScanWorkq.link, getLsbD_or_bit hcls, List.filter_append, Bool.or_eq_true, h.occupied,
      decide_eq_true_eq]
    by_cases hb : b = cls f
    · simp [hb]
    · simp [hb, Ne.symm hb]

theorem push (h : q.Holds cls l) (hnodup : l.Nodup) {f : F} (hf : f ∉ l) (hcls : cls f < 64) :
    ∃ q', q.push (cls f) f = some q' ∧ q'.Holds cls (l ++ [f]) ∧ q'.draining = q.draining := by
  have hnotin : f ∉ l.filter fun g => decide (cls g = cls f) :=
    fun hmem => hf (List.mem_filter.mp hmem).1
  have hbucket : IsQueue (Function.update q.next f none) (q.head (cls f)) (q.tail (cls f))
      (l.filter fun g => decide (cls g = cls f)) := by
    refine (h.buckets (cls f)).congr fun g hg => Function.update_of_ne ?_ _ _
    rintro rfl
    exact hnotin hg
  have hnone : Function.update q.next f none f = none := Function.update_self ..
  have hother : ∀ g, cls g ≠ cls f → Function.update q.next f none g = q.next g := by
    intro g hg
    refine Function.update_of_ne ?_ _ _
    rintro rfl
    exact hg rfl
  unfold ScanWorkq.push
  simp only
  split_ifs with hbit
  · -- the class is in use, so its list has a last file
    rw [and_bit_ne_zero_iff hcls, h.occupied] at hbit
    obtain ⟨t, ht⟩ : ∃ t, _ = some t := ⟨_, List.getLast?_eq_some_getLast hbit⟩
    have htail : q.tail (cls f) = some t := hbucket.last.trans ht
    have htcls : cls t = cls f :=
      of_decide_eq_true (List.mem_filter.mp (List.mem_of_getLast? ht)).2
    rw [htail] at hbucket
    refine ⟨_, by rw [htail, Option.map_some], h.link hcls ?_ ?_ fun _ _ => rfl, rfl⟩
    · exact hbucket.append (hnodup.filter _) hnotin hnone
    · intro g hg
      have hne : g ≠ t := by
        rintro rfl
        exact hg htcls
      rw [Function.update_of_ne hne, hother g hg]
  · rw [and_bit_ne_zero_iff hcls, h.occupied, not_not] at hbit
    refine ⟨_, rfl, h.link hcls ?_ hother fun b hb => Function.update_of_ne hb _ _, rfl⟩
    rw [hbit, List.nil_append, Function.update_self]
    exact .singleton hnone

omit [DecidableEq F] in
theorem occupied_eq_zero_iff (h : q.Holds cls l) :
    q.occupied = 0 ↔ l = [] := by
  constructor
  · intro hzero
    refine List.eq_nil_iff_forall_not_mem.mpr fun f hf => ?_
    have hbit := (h.occupied (cls f)).mpr (List.ne_nil_of_mem (List.mem_filter.mpr
      ⟨hf, decide_eq_true rfl⟩))
    rw [hzero] at hbit
    simp at hbit
  · rintro rfl
    refine BitVec.eq_of_getLsbD_eq fun b _ => ?_
    have hbit := h.occupied b
    simp only [List.filter_nil, ne_eq, not_true_eq_false, iff_false, Bool.not_eq_true] at hbit
    simpa using hbit

theorem filter_class_of_ne (l : List F) {f : F} {b : ℕ} (hb : b ≠ cls f) :
    (l.filter fun g => decide (g ≠ f)).filter (fun g => decide (cls g = b)) =
      l.filter fun g => decide (cls g = b) := by
  rw [List.filter_filter]
  refine List.filter_congr fun g _ => ?_
  by_cases hg : cls g = b
  · have hne : g ≠ f := by
      rintro rfl
      exact hb hg.symm
    simp [hg, hne]
  · simp [hg]

theorem filter_class_self {l rest : List F} (hnodup : l.Nodup) {f : F}
    (hlist : l.filter (fun g => decide (cls g = cls f)) = f :: rest) :
    (l.filter fun g => decide (g ≠ f)).filter (fun g => decide (cls g = cls f)) = rest := by
  have hf : f ∉ rest := by
    have := hnodup.filter fun g => decide (cls g = cls f)
    rw [hlist] at this
    exact (List.nodup_cons.mp this).1
  rw [List.filter_filter]
  simp only [Bool.and_comm (decide (cls _ = cls f))]
  rw [← List.filter_filter, hlist, List.filter_cons_of_neg (by simp)]
  refine List.filter_eq_self.mpr fun g hg => decide_eq_true ?_
  rintro rfl
  exact hf hg

/-- The list of the file's class loses it, and the class its bit if nothing is left. -/
theorem unlink (h : q.Holds cls l) (hnodup : l.Nodup) {f : F} {rest : List F}
    (hlist : l.filter (fun g => decide (cls g = cls f)) = f :: rest) {tail : ℕ → Option F}
    {occupied : BitVec 64} (hrest : IsQueue q.next (q.next f) (tail (cls f)) rest)
    (htail : ∀ b, b ≠ cls f → tail b = q.tail b)
    (hself : occupied.getLsbD (cls f) = true ↔ rest ≠ [])
    (hbits : ∀ b, b ≠ cls f → occupied.getLsbD b = q.occupied.getLsbD b) :
    ({ q with
      head := Function.update q.head (cls f) (q.next f)
      tail := tail
      occupied := occupied } : ScanWorkq F).Holds cls (l.filter fun g => decide (g ≠ f)) where
  buckets b := by
    by_cases hb : b = cls f
    · subst hb
      rw [filter_class_self hnodup hlist]
      simpa using hrest
    · rw [filter_class_of_ne l hb]
      simpa [Function.update_of_ne hb, htail b hb] using h.buckets b
  occupied b := by
    by_cases hb : b = cls f
    · subst hb
      rw [filter_class_self hnodup hlist]
      exact hself
    · rw [filter_class_of_ne l hb]
      simp only
      rw [hbits b hb]
      exact h.occupied b

theorem afterPop (h : q.Holds cls l) (hnodup : l.Nodup) {f : F} (hcls : cls f < 64)
    {rest : List F} (hlist : l.filter (fun g => decide (cls g = cls f)) = f :: rest)
    (hrest : IsQueue q.next (q.next f) (if q.next f = none then none else q.tail (cls f)) rest) :
    ((if q.next f = none then
        { q with
          head := Function.update q.head (cls f) (q.next f)
          tail := Function.update q.tail (cls f) none
          occupied := q.occupied &&& ~~~(1#64 <<< cls f) }
      else { q with head := Function.update q.head (cls f) (q.next f) }) : ScanWorkq F).Holds cls
        (l.filter fun g => decide (g ≠ f)) := by
  have hempty : q.next f = none ↔ rest = [] := by
    rw [hrest.head_eq, List.head?_eq_none_iff]
  by_cases hnone : q.next f = none
  · rw [if_pos hnone] at hrest ⊢
    refine h.unlink hnodup hlist (by rwa [Function.update_self])
      (fun b hb => Function.update_of_ne hb _ _) ?_ fun b hb => ?_
    · rw [getLsbD_clear_bit hcls]
      simpa using hempty.mp hnone
    · rw [getLsbD_clear_bit hcls]
      simp [hb]
  · rw [if_neg hnone] at hrest ⊢
    refine h.unlink hnodup hlist hrest (fun _ _ => rfl) ?_ fun _ _ => rfl
    rw [h.occupied, hlist]
    simpa using mt hempty.mpr hnone

/-- A pop waits or ends on an empty queue, and otherwise takes the oldest file of the highest
class. -/
theorem pop (h : q.Holds cls l) (hnodup : l.Nodup) (hcls : ∀ f, cls f < 64) :
    (q.pop = .wait ∧ l = [] ∧ q.draining = false) ∨ (q.pop = .null ∧ l = [] ∧ q.draining = true) ∨
    ∃ f q', q.pop = .file f q' ∧ OldestOfHighest cls l f ∧
      q'.Holds cls (l.filter fun g => decide (g ≠ f)) ∧ q'.draining = q.draining := by
  by_cases hzero : q.occupied = 0
  · have hnil := h.occupied_eq_zero_iff.mp hzero
    cases hdrain : q.draining with
    | false => exact Or.inl ⟨by rw [ScanWorkq.pop, if_pos ⟨hzero, hdrain⟩], hnil, rfl⟩
    | true =>
      refine Or.inr (Or.inl ⟨?_, hnil, rfl⟩)
      rw [ScanWorkq.pop, if_neg (by simp [hdrain]), if_pos hzero]
  · obtain ⟨hbit, hmax⟩ := highestSetBit_spec hzero
    generalize hb : highestSetBit q.occupied = b at hbit hmax
    have hne := (h.occupied b).mp hbit
    obtain ⟨f, hf⟩ := Option.isSome_iff_exists.mp ((h.buckets b).head_isSome_iff.mpr hne)
    have hbucket := h.buckets b
    rw [hf] at hbucket
    obtain ⟨rest, hlist, hrest⟩ := hbucket.pop
    obtain ⟨before, after, hl, hbefore, hfcls, -⟩ := List.filter_eq_cons_iff.mp hlist
    rw [decide_eq_true_eq] at hfcls
    subst hfcls
    have hle : ∀ g ∈ l, cls g ≤ cls f := fun g hg =>
      hmax _ ((h.occupied _).mpr (List.ne_nil_of_mem (List.mem_filter.mpr
        ⟨hg, decide_eq_true rfl⟩)))
    refine Or.inr (Or.inr ⟨f, _, ?_, ⟨before, after, hl, fun g hg => ?_, fun g hg => ?_⟩,
      h.afterPop hnodup (hcls f) hlist hrest, ?_⟩)
    · rw [ScanWorkq.pop, if_neg fun hz => hzero hz.1, if_neg hzero]
      simp only [hb, hf, Function.update_self]
    · have hmem : g ∈ l := by
        rw [hl]
        exact List.mem_append_left _ hg
      have hclass : cls g ≠ cls f := by simpa using hbefore g hg
      exact lt_of_le_of_ne (hle g hmem) hclass
    · refine hle g ?_
      rw [hl]
      exact List.mem_append_right _ (List.mem_cons_of_mem _ hg)
    · split_ifs <;> rfl

end ScanWorkq.Holds

end Queue

namespace ScanState

variable {ι F : Type*} [DecidableEq F] {file : F → QueuedFile} {s s' : ScanState ι F}

theorem queued_nodup (h : s.pushed.Nodup) : s.queued.Nodup := h.filter _

theorem mem_queued {f : F} : f ∈ s.queued ↔ f ∈ s.pushed ∧ f ∉ s.popped := by
  simp [queued]

structure Inv (file : F → QueuedFile) (s : ScanState ι F) : Prop where
  holds : s.q.Holds (fun f => (file f).bucket) s.queued
  pushed_nodup : s.pushed.Nodup
  popped_nodup : s.popped.Nodup
  popped_sub : s.popped ⊆ s.pushed
  workers : ∀ w, (s.workers w).Ok s.q.draining s.queued

theorem Inv.start (next : F → Option F) : (start next : ScanState ι F).Inv file where
  holds := ⟨fun _ => .empty next, fun b => by simp [ScanState.start, queued]⟩
  pushed_nodup := List.nodup_nil
  popped_nodup := List.nodup_nil
  popped_sub := List.Subset.refl _
  workers _ := trivial

section Steps

variable [DecidableEq ι]

/-- A push before the drain goes through and keeps the invariant. -/
theorem Inv.push (h : s.Inv file) (hopen : s.q.draining = false) {f : F} (hnew : f ∉ s.pushed)
    (woken : Option ι) :
    ∃ s', s.push file f woken = some s' ∧ s'.Inv file ∧ s'.queued = s.queued ++ [f] := by
  obtain ⟨q', hq, hholds, hdrain⟩ := h.holds.push (queued_nodup h.pushed_nodup)
    (fun hmem => hnew (mem_queued.mp hmem).1) (scanBucket_lt _)
  have hqueued : (s.pushed ++ [f]).filter (fun g => decide (g ∉ s.popped)) = s.queued ++ [f] := by
    have hf : f ∉ s.popped := fun hmem => hnew (h.popped_sub hmem)
    rw [List.filter_append, List.filter_singleton]
    simp [hf, queued]
  refine ⟨⟨q', _, s.pushed ++ [f], s.popped⟩, by rw [ScanState.push, hq, Option.map_some], ?_,
    hqueued⟩
  exact
    { holds := by
        rw [queued, hqueued]
        exact hholds
      pushed_nodup := List.nodup_append.mpr ⟨h.pushed_nodup, List.nodup_singleton f, by
        rintro a ha b hb rfl
        exact hnew (List.mem_singleton.mp hb ▸ ha)⟩
      popped_nodup := h.popped_nodup
      popped_sub := fun a ha => List.mem_append_left _ (h.popped_sub ha)
      workers := fun w => by
        have hw := h.workers w
        simp only [hdrain]
        rw [hopen] at hw ⊢
        split_ifs
        · trivial
        · cases hpc : s.workers w with
          | exited =>
            rw [hpc] at hw
            cases hw.1
          | crashed => exact (hpc ▸ hw).elim
          | _ => trivial }

omit [DecidableEq ι] in
theorem Inv.drain (h : s.Inv file) : s.drain.Inv file where
  holds := ⟨h.holds.buckets, h.holds.occupied⟩
  pushed_nodup := h.pushed_nodup
  popped_nodup := h.popped_nodup
  popped_sub := h.popped_sub
  workers w := by
    have hw := h.workers w
    simp only [ScanState.drain]
    split_ifs with hasleep
    · trivial
    · cases hpc : s.workers w with
      | exited =>
        rw [hpc] at hw
        exact ⟨rfl, hw.2⟩
      | asleep => exact absurd hpc hasleep
      | crashed => exact (hpc ▸ hw).elim
      | _ => trivial

theorem Inv.setWorker (h : s.Inv file) (w : ι) {pc : WorkerPc F}
    (hpc : pc.Ok s.q.draining s.queued) : (s.setWorker w pc).Inv file where
  holds := h.holds
  pushed_nodup := h.pushed_nodup
  popped_nodup := h.popped_nodup
  popped_sub := h.popped_sub
  workers := (Function.forall_update_iff s.workers
    fun _ pc => pc.Ok s.q.draining s.queued).mpr ⟨hpc, fun v _ => h.workers v⟩

theorem queued_take (s : ScanState ι F) (w : ι) (f : F) (q : ScanWorkq F) :
    (s.take w f q).queued = s.queued.filter fun g => decide (g ≠ f) := by
  rw [queued, queued, List.filter_filter]
  refine List.filter_congr fun g _ => ?_
  simp [take, and_comm]

theorem Inv.take (h : s.Inv file) (w : ι) {f : F} {q : ScanWorkq F}
    (hf : OldestOfHighest (fun f => (file f).bucket) s.queued f)
    (hq : q.Holds (fun f => (file f).bucket) (s.queued.filter fun g => decide (g ≠ f)))
    (hdrain : q.draining = s.q.draining) :
    (s.take w f q).Inv file := by
  have hmem := hf.mem
  obtain ⟨hpushed, hpopped⟩ := mem_queued.mp hmem
  exact
    { holds := by
        rw [queued_take]
        exact hq
      pushed_nodup := h.pushed_nodup
      popped_nodup := List.nodup_append.mpr ⟨h.popped_nodup, List.nodup_singleton f, by
        rintro a ha b hb rfl
        exact hpopped (List.mem_singleton.mp hb ▸ ha)⟩
      popped_sub := fun a ha => (List.mem_append.mp ha).elim (fun ha => h.popped_sub ha)
        fun ha => List.mem_singleton.mp ha ▸ hpushed
      workers := by
        refine (Function.forall_update_iff s.workers fun _ pc => pc.Ok q.draining
          (s.take w f q).queued).mpr ⟨trivial, fun v _ => ?_⟩
        have hv := h.workers v
        rw [hdrain]
        cases hpc : s.workers v with
        | exited =>
          rw [hpc] at hv
          exact absurd (hv.2 ▸ hmem) List.not_mem_nil
        | asleep =>
          rw [hpc] at hv
          exact hv
        | crashed => exact (hpc ▸ hv).elim
        | _ => trivial }

/-- What a worker can do next: with the lock held it waits, leaves or takes a file, as the queue
is. -/
theorem Inv.workerStep_cases (h : s.Inv file) {w : ι} (hstep : s.workerStep w = some s') :
    (s.workers w = .popping ∧ s' = s.setWorker w .asleep ∧ s.q.draining = false ∧ s.queued = []) ∨
    (s.workers w = .popping ∧ s' = s.setWorker w .exited ∧ s.q.draining = true ∧ s.queued = []) ∨
    (∃ f q, s.workers w = .popping ∧
      s' = s.take w f q ∧
      OldestOfHighest (fun f => (file f).bucket) s.queued f ∧
      q.Holds (fun f => (file f).bucket) (s.queued.filter fun g => decide (g ≠ f)) ∧
      q.draining = s.q.draining) ∨
    ∃ f, s.workers w = .holding f ∧ s' = s.setWorker w .popping := by
  unfold workerStep at hstep
  cases hpc : s.workers w with
  | popping =>
    rw [hpc] at hstep
    rcases h.holds.pop (queued_nodup h.pushed_nodup) (fun _ => scanBucket_lt _) with
      ⟨hpop, hnil, hdrain⟩ | ⟨hpop, hnil, hdrain⟩ | ⟨f, q, hpop, hf, hq, hdrain⟩
    · simp only [hpop, Option.some.injEq] at hstep
      exact Or.inl ⟨rfl, hstep.symm, hdrain, hnil⟩
    · simp only [hpop, Option.some.injEq] at hstep
      exact Or.inr (Or.inl ⟨rfl, hstep.symm, hdrain, hnil⟩)
    · simp only [hpop, Option.some.injEq] at hstep
      exact Or.inr (Or.inr (Or.inl ⟨f, q, rfl, hstep.symm, hf, hq, hdrain⟩))
  | holding f =>
    rw [hpc] at hstep
    exact Or.inr (Or.inr (Or.inr ⟨f, rfl, (Option.some.inj hstep).symm⟩))
  | asleep => simp [hpc] at hstep
  | exited => simp [hpc] at hstep
  | crashed => simp [hpc] at hstep

theorem Inv.step (h : s.Inv file) (hstep : Step file s s') : s'.Inv file := by
  cases hstep with
  | push hopen hnew _ hpush =>
    obtain ⟨s₁, hs₁, hinv, -⟩ := h.push hopen hnew _
    obtain rfl := Option.some.inj (hpush.symm.trans hs₁)
    exact hinv
  | drain _ => exact h.drain
  | worker hw =>
    rcases h.workerStep_cases hw with ⟨-, rfl, hdrain, -⟩ | ⟨-, rfl, hdrain, hnil⟩ |
      ⟨f, q, -, rfl, hf, hq, hdrain⟩ | ⟨f, -, rfl⟩
    · exact h.setWorker _ hdrain
    · exact h.setWorker _ ⟨hdrain, hnil⟩
    · exact h.take _ hf hq hdrain
    · exact h.setWorker _ trivial
  | spurious _ => exact h.setWorker _ trivial

theorem Reachable.inv (h : Reachable file s) : s.Inv file := by
  induction h with
  | start next => exact .start next
  | step _ hstep ih => exact ih.step hstep

end Steps

section AfterDrain

variable [DecidableEq ι] [Fintype ι]

def workerCost : WorkerPc F → ℕ
  | .popping => 1
  | .holding _ => 2
  | _ => 0

/-- After the drain every step makes this smaller. -/
def cost (s : ScanState ι F) : ℕ := 3 * s.queued.length + ∑ w, workerCost (s.workers w)

theorem cost_setWorker (s : ScanState ι F) (w : ι) (pc : WorkerPc F) :
    (s.setWorker w pc).cost + workerCost (s.workers w) = s.cost + workerCost pc := by
  have hsum := Threads.sum_update workerCost s.workers w pc
  change 3 * s.queued.length + ∑ v, workerCost (Function.update s.workers w pc v) + _ = _
  rw [cost]
  omega

omit [DecidableEq ι] [Fintype ι] in
theorem length_queued_take {l : List F} (hnodup : l.Nodup) {f : F} (hf : f ∈ l) :
    (l.filter fun g => decide (g ≠ f)).length + 1 = l.length := by
  have herase : l.filter (fun g => decide (g ≠ f)) = l.erase f := by
    rw [hnodup.erase_eq_filter]
    exact List.filter_congr fun g _ => by simp [bne, BEq.beq]
  rw [herase, List.length_erase_of_mem hf]
  have := List.length_pos_of_mem hf
  omega

/-- After the drain only workers move, and each of their steps is one of finitely many. -/
theorem Inv.cost_lt (h : s.Inv file) (hdrain : s.q.draining = true) (hstep : Step file s s') :
    s'.q.draining = true ∧ s'.cost < s.cost := by
  cases hstep with
  | push hopen => simp [hdrain] at hopen
  | drain hopen => simp [hdrain] at hopen
  | @spurious w hasleep =>
    have hw := h.workers w
    rw [hasleep, hdrain] at hw
    cases hw
  | @worker _ w hw =>
    rcases h.workerStep_cases hw with ⟨-, -, hopen, -⟩ | ⟨hpc, rfl, -, -⟩ |
      ⟨f, q, hpc, rfl, hf, -, hq⟩ | ⟨f, hpc, rfl⟩
    · simp [hdrain] at hopen
    · have hcost := s.cost_setWorker w .exited
      rw [hpc] at hcost
      simp only [workerCost] at hcost
      exact ⟨hdrain, by omega⟩
    · have hcost := s.cost_setWorker w (.holding f)
      rw [hpc] at hcost
      simp only [workerCost] at hcost
      refine ⟨hq.trans hdrain, ?_⟩
      have hlen := length_queued_take (queued_nodup h.pushed_nodup) hf.mem
      rw [← queued_take s w f q] at hlen
      have hqueued : (s.setWorker w (.holding f)).queued = s.queued := rfl
      have htake : (s.take w f q).cost + 3 * s.queued.length =
          (s.setWorker w (.holding f)).cost + 3 * (s.take w f q).queued.length := by
        rw [cost, cost, hqueued]
        change _ + ∑ v, workerCost (Function.update s.workers w (.holding f) v) + _ =
          _ + ∑ v, workerCost (Function.update s.workers w (.holding f) v) + _
        omega
      omega
    · have hcost := s.cost_setWorker w .popping
      rw [hpc] at hcost
      simp only [workerCost] at hcost
      exact ⟨hdrain, by omega⟩

omit [Fintype ι] in
/-- Where nothing can move after the drain, every worker has left. -/
theorem Inv.exited_of_stuck (h : s.Inv file) (hdrain : s.q.draining = true)
    (hstuck : ∀ s', ¬ Step file s s') (w : ι) : s.workers w = .exited := by
  have hw := h.workers w
  rw [hdrain] at hw
  cases hpc : s.workers w with
  | exited => rfl
  | popping =>
    exfalso
    have hmoves : ∃ s', s.workerStep w = some s' := by
      rw [workerStep, hpc]
      cases s.q.pop <;> exact ⟨_, rfl⟩
    obtain ⟨s', hs'⟩ := hmoves
    exact hstuck s' (.worker hs')
  | holding f =>
    have hmoves : s.workerStep w = some (s.setWorker w .popping) := by rw [workerStep, hpc]
    exact absurd (.worker hmoves) (hstuck _)
  | asleep =>
    rw [hpc] at hw
    cases hw
  | crashed => exact (hpc ▸ hw).elim

end AfterDrain

/-- The queue at any time: its links and mask, what has gone through it, what a push or a pop would
do now, and, after the drain, that the workers all leave in the end. -/
structure Exact [DecidableEq ι] [Fintype ι] (file : F → QueuedFile) (s : ScanState ι F) : Prop where
  linked : ∀ b, IsQueue s.q.next (s.q.head b) (s.q.tail b)
    (s.queued.filter fun f => decide ((file f).bucket = b))
  occupied : ∀ b, s.q.occupied.getLsbD b = true ↔ (s.q.head b).isSome = true
  once : s.pushed.Nodup ∧ s.popped.Nodup ∧ s.popped ⊆ s.pushed
  push : ∀ f woken, s.q.draining = false → f ∉ s.pushed →
    ∃ s', s.push file f woken = some s' ∧ s'.queued = s.queued ++ [f]
  pop : ∀ f q, s.q.pop = .file f q → OldestOfHighest (fun f => (file f).bucket) s.queued f
  null : s.q.pop = .null → s.q.draining = true ∧ s.queued = []
  no_crash : s.q.pop ≠ .crash ∧ ∀ w, s.workers w ≠ .crashed
  exited : ∀ w, s.workers w = .exited → s.q.draining = true ∧ s.queued = []
  awake : s.q.draining = true → ∀ w, s.workers w ≠ .asleep
  ends : s.q.draining = true → ∀ s', Step file s s' → s'.q.draining = true ∧ s'.cost < s.cost
  drained : s.q.draining = true → (∀ s', ¬ Step file s s') →
    (∀ w, s.workers w = .exited) ∧ s.popped.Perm s.pushed

end ScanState

open ScanState in
/-- Whatever the order of steps, the hashing queue keeps its links, hands out every file once in
the order of the classes, and lets its workers go when it is drained and empty. -/
theorem scan_workq_exact {F : Type*} [DecidableEq F] (file : F → QueuedFile) (nworkers : ℕ)
    (s : ScanState (Fin (max nworkers 1)) F) (h : Reachable file s) :
    s.Exact file ∧ ∀ size, scanBucket size < SCAN_NBUCKETS := by
  have hinv := h.inv
  refine ⟨?_, scanBucket_lt⟩
  exact
    { linked := hinv.holds.buckets
      occupied := fun b => by
        rw [(hinv.holds.buckets b).head_isSome_iff]
        exact hinv.holds.occupied b
      once := ⟨hinv.pushed_nodup, hinv.popped_nodup, hinv.popped_sub⟩
      push := fun f woken hopen hnew => by
        obtain ⟨s', hs', -, hqueued⟩ := hinv.push hopen hnew woken
        exact ⟨s', hs', hqueued⟩
      pop := fun f q hpop => by
        rcases hinv.holds.pop (queued_nodup hinv.pushed_nodup) (fun _ => scanBucket_lt _) with
          ⟨heq, -⟩ | ⟨heq, -⟩ | ⟨f', q', heq, hf, -⟩
        · simp [hpop] at heq
        · simp [hpop] at heq
        · rw [hpop, ScanPop.file.injEq] at heq
          exact heq.1 ▸ hf
      null := fun hpop => by
        rcases hinv.holds.pop (queued_nodup hinv.pushed_nodup) (fun _ => scanBucket_lt _) with
          ⟨heq, -⟩ | ⟨heq, hnil, hdrain⟩ | ⟨f', q', heq, hf, -⟩
        · simp [hpop] at heq
        · exact ⟨hdrain, hnil⟩
        · simp [hpop] at heq
      no_crash := by
        refine ⟨fun hpop => ?_, fun w hw => ?_⟩
        · rcases hinv.holds.pop (queued_nodup hinv.pushed_nodup) (fun _ => scanBucket_lt _) with
            ⟨heq, -⟩ | ⟨heq, -⟩ | ⟨f', q', heq, -⟩ <;> simp [hpop] at heq
        · exact (hw ▸ hinv.workers w).elim
      exited := fun w hw => by
        have := hinv.workers w
        rwa [hw] at this
      awake := fun hdrain w hw => by
        have := hinv.workers w
        rw [hw, hdrain] at this
        cases this
      ends := fun hdrain s' hstep => hinv.cost_lt hdrain hstep
      drained := fun hdrain hstuck => by
        have hexited := hinv.exited_of_stuck hdrain hstuck
        have hnil : s.queued = [] := by
          have := hinv.workers ⟨0, by omega⟩
          rw [hexited] at this
          exact this.2
        refine ⟨hexited, (List.perm_ext_iff_of_nodup hinv.popped_nodup hinv.pushed_nodup).mpr
          fun f => ⟨fun hf => hinv.popped_sub hf, fun hf => ?_⟩⟩
        by_contra hpopped
        exact List.not_mem_nil (hnil ▸ mem_queued.mpr ⟨hf, hpopped⟩) }

namespace ScanState

/-- What may come next, where it can be told by looking. -/
inductive Move (ι F : Type*)
  | push (f : F) (woken : Option ι)
  | drain
  | worker (w : ι)

variable {ι F : Type*} [DecidableEq ι] [Fintype ι] [DecidableEq F]

instance (s : ScanState ι F) : (woken : Option ι) → Decidable (s.Signals woken)
  | none => inferInstanceAs (Decidable (∀ w, s.workers w ≠ .asleep))
  | some w => inferInstanceAs (Decidable (s.workers w = .asleep))

def move (file : F → QueuedFile) (s : ScanState ι F) : Move ι F → Option (ScanState ι F)
  | .push f woken =>
    if s.q.draining = false ∧ f ∉ s.pushed ∧ s.Signals woken then s.push file f woken else none
  | .drain => if s.q.draining = false then some s.drain else none
  | .worker w => s.workerStep w

theorem step_of_move {file : F → QueuedFile} {s s' : ScanState ι F} {m : Move ι F}
    (h : s.move file m = some s') : Step file s s' := by
  cases m with
  | push f woken =>
    obtain ⟨⟨hopen, hnew, hsignal⟩, hpush⟩ := Option.ite_none_right_eq_some.mp h
    exact .push hopen hnew hsignal hpush
  | drain =>
    obtain ⟨hopen, hdrain⟩ := Option.ite_none_right_eq_some.mp h
    exact Option.some.inj hdrain ▸ .drain hopen
  | worker w => exact .worker h

theorem Reachable.moves {file : F → QueuedFile} {s s' : ScanState ι F} (h : Reachable file s)
    {ms : List (Move ι F)} (hrun : ms.foldlM (move file) s = some s') : Reachable file s' := by
  induction ms generalizing s with
  | nil => exact Option.some.inj hrun ▸ h
  | cons m ms ih =>
    obtain ⟨t, hmove, hrest⟩ := Option.bind_eq_some_iff.mp hrun
    exact ih (h.step (step_of_move hmove)) hrest

end ScanState

def pageAndGigabytes (f : ℕ) : QueuedFile := if f = 1 then ⟨4096, 0⟩ else ⟨1073741824, 0⟩

def firstWorker : Fin (max 2 1) := ⟨0, by decide⟩

def secondWorker : Fin (max 2 1) := ⟨1, by decide⟩

/-- The first worker sleeps until the page is pushed; both hash a gigabyte before it, and leave
after the drain, which wakes the second. -/
def drainedRun : List (ScanState.Move (Fin (max 2 1)) ℕ) :=
  [.worker firstWorker, .push 1 (some firstWorker), .push 2 none, .push 3 none,
    .worker firstWorker, .worker secondWorker, .worker secondWorker, .worker firstWorker,
    .worker firstWorker, .worker secondWorker, .drain, .worker secondWorker, .worker firstWorker,
    .worker firstWorker]

open ScanState in
/-- Two workers, files of two classes, and the drain: every file is handed out once, the largest
class first and its files in order. -/
theorem scan_workq_exact_drained : ∃ s : ScanState (Fin (max 2 1)) ℕ,
    drainedRun.foldlM (move pageAndGigabytes) (start fun _ => none) = some s ∧
      s.Exact pageAndGigabytes ∧ s.popped = [2, 3, 1] ∧
      s.workers firstWorker = .exited ∧ s.workers secondWorker = .exited := by
  have hshown : (drainedRun.foldlM (move pageAndGigabytes) (start fun _ => none)).map
      (fun s => (s.popped, s.workers firstWorker, s.workers secondWorker)) =
        some ([2, 3, 1], .exited, .exited) := by
    decide +kernel
  obtain ⟨s, hrun, hs⟩ := Option.map_eq_some_iff.mp hshown
  obtain ⟨hpopped, hworkers⟩ := Prod.mk.inj hs
  obtain ⟨hfirst, hsecond⟩ := Prod.mk.inj hworkers
  exact ⟨s, hrun, (scan_workq_exact pageAndGigabytes 2 s ((Reachable.start _).moves hrun)).1,
    hpopped, hfirst, hsecond⟩

end Oans
