import Oans.Threads

/-!
# The thread pool and waiting for it

Every item is counted before it gets to the pool and dropped from the count once its worker has
returned, so whoever waits for the count to reach 0 waits for everything that was pushed. The count
and the condition are looked at under one lock: a thread that goes to sleep does so before the last
item is dropped, and is woken then.
-/

namespace Oans

inductive PoolCaller (ι : Type*)
  | outside
  /-- In `threads_pool_push()`, behind the lock: the item is counted, but the pool has it not. -/
  | pushing (item : ι)
  /-- In `threads_pool_wait_idle()`, about to take the lock. -/
  | waiting
  /-- In `g_cond_wait()`. -/
  | asleep
  deriving DecidableEq

namespace PoolCaller

variable {ι : Type*}

def pending : PoolCaller ι → Multiset ι
  | .pushing item => {item}
  | _ => 0

def wake : PoolCaller ι → PoolCaller ι
  | .asleep => .waiting
  | c => c

def looks : PoolCaller ι → ℕ
  | .waiting => 1
  | _ => 0

theorem looks_le (c : PoolCaller ι) : c.looks ≤ 1 := by
  cases c with
  | waiting => exact le_rfl
  | outside => exact Nat.zero_le 1
  | pushing item => exact Nat.zero_le 1
  | asleep => exact Nat.zero_le 1

@[simp] theorem wake_pending (c : PoolCaller ι) : c.wake.pending = c.pending := by
  cases c <;> rfl

theorem wake_ne_asleep (c : PoolCaller ι) : c.wake ≠ .asleep := by
  cases c <;> nofun

end PoolCaller

structure ThreadsPool (τ ι : Type*) where
  outstanding : BitVec 32
  callers : τ → PoolCaller ι
  queue : List ι
  /-- held by a thread of the pool that is in `pool->worker()` -/
  running : Multiset ι
  /-- its worker has returned, and `pool_work_done()` is to come -/
  finishing : Multiset ι
  counted : Multiset ι
  done : Multiset ι

namespace ThreadsPool

variable {τ ι : Type*}

/-- `setup_pool()`. -/
def setup : ThreadsPool τ ι := ⟨0, fun _ => .outside, [], 0, 0, 0, 0⟩

def workDone (s : ThreadsPool τ ι) (item : ι) (finishing : Multiset ι) : ThreadsPool τ ι :=
  let outstanding := s.outstanding - 1
  { s with
    outstanding := outstanding
    callers := if outstanding = 0 then fun t => (s.callers t).wake else s.callers
    finishing := finishing
    done := item ::ₘ s.done }

theorem workDone_callers (s : ThreadsPool τ ι) (item : ι) (finishing : Multiset ι) (t : τ) :
    (s.workDone item finishing).callers t =
      if s.outstanding - 1 = 0 then (s.callers t).wake else s.callers t := by
  rw [workDone]
  dsimp only
  split_ifs <;> rfl

def isIdle (s : ThreadsPool τ ι) : Bool := s.outstanding == 0

section Steps

variable [DecidableEq τ]

def setCaller (s : ThreadsPool τ ι) (t : τ) (c : PoolCaller ι) : ThreadsPool τ ι :=
  { s with callers := Function.update s.callers t c }

theorem setCaller_callers (s : ThreadsPool τ ι) (t : τ) (c : PoolCaller ι) (u : τ) :
    (s.setCaller t c).callers u = if u = t then c else s.callers u := Function.update_apply ..

/-- `threads_pool_push()` up to the push itself. -/
def count (s : ThreadsPool τ ι) (t : τ) (item : ι) : ThreadsPool τ ι :=
  { s.setCaller t (.pushing item) with
    outstanding := s.outstanding + 1
    counted := item ::ₘ s.counted }

/-- `pool_push()`: the item is queued, whether a thread could be started for it or not. -/
def push (s : ThreadsPool τ ι) (t : τ) (item : ι) : ThreadsPool τ ι :=
  { s.setCaller t .outside with queue := s.queue ++ [item] }

def look (s : ThreadsPool τ ι) (t : τ) : ThreadsPool τ ι :=
  s.setCaller t (if s.outstanding = 0 then .outside else .asleep)

inductive Work (maxThreads : ℕ) : ThreadsPool τ ι → ThreadsPool τ ι → Prop
  | push {s t item} (h : s.callers t = .pushing item) : Work maxThreads s (s.push t item)
  | take {s item rest} (h : s.queue = item :: rest)
      (hfree : s.running.card + s.finishing.card < maxThreads) :
      Work maxThreads s { s with queue := rest, running := item ::ₘ s.running }
  | finish {s item rest} (h : s.running = item ::ₘ rest) :
      Work maxThreads s { s with running := rest, finishing := item ::ₘ s.finishing }
  | workDone {s item rest} (h : s.finishing = item ::ₘ rest) :
      Work maxThreads s (s.workDone item rest)
  | look {s t} (h : s.callers t = .waiting) : Work maxThreads s (s.look t)

/-- Everything that may happen. No more items are counted than the counter holds: each is kept in
memory. -/
inductive Step (maxThreads : ℕ) : ThreadsPool τ ι → ThreadsPool τ ι → Prop
  | work {s s'} (h : Work maxThreads s s') : Step maxThreads s s'
  | count {s t} (item) (h : s.callers t = .outside) (hroom : s.outstanding ≠ BitVec.allOnes 32) :
      Step maxThreads s (s.count t item)
  | wait {s t} (h : s.callers t = .outside) : Step maxThreads s (s.setCaller t .waiting)
  | spurious {s t} (h : s.callers t = .asleep) : Step maxThreads s (s.setCaller t .waiting)

end Steps

section Inv

variable [Fintype τ]

def inFlight (s : ThreadsPool τ ι) : Multiset ι :=
  ∑ t, (s.callers t).pending + ↑s.queue + s.running + s.finishing

structure Inv (s : ThreadsPool τ ι) : Prop where
  split : s.counted = s.inFlight + s.done
  outstanding : s.outstanding.toNat = s.inFlight.card
  asleep : ∀ t, s.callers t = .asleep → s.outstanding ≠ 0

theorem toNat_pred {x : BitVec 32} (h : 0 < x.toNat) : (x - 1).toNat + 1 = x.toNat := by
  bv_omega

theorem toNat_succ {x : BitVec 32} (h : x ≠ BitVec.allOnes 32) : (x + 1).toNat = x.toNat + 1 := by
  have hne : x.toNat ≠ (BitVec.allOnes 32).toNat := fun heq => h (BitVec.eq_of_toNat_eq heq)
  rw [BitVec.toNat_allOnes] at hne
  bv_omega

variable {maxThreads : ℕ} {s s' : ThreadsPool τ ι} {t : τ} {c : PoolCaller ι} {item : ι}

theorem Inv.setup : (setup : ThreadsPool τ ι).Inv where
  split := by simp [ThreadsPool.setup, inFlight, PoolCaller.pending]
  outstanding := by simp [ThreadsPool.setup, inFlight, PoolCaller.pending]
  asleep _ := nofun

/-- An item that goes from one thread of the pool to another stays in flight. -/
theorem Inv.of_moved (h : s.Inv) {queue : List ι} {running finishing : Multiset ι}
    (hmoved : (queue : Multiset ι) + running + finishing = ↑s.queue + s.running + s.finishing) :
    Inv { s with queue := queue, running := running, finishing := finishing } := by
  have hflight : inFlight { s with queue := queue, running := running, finishing := finishing } =
      s.inFlight := by
    calc
      _ = ∑ t, (s.callers t).pending + (↑queue + running + finishing) := by
        rw [inFlight]
        abel
      _ = s.inFlight := by
        rw [hmoved, inFlight]
        abel
  exact ⟨by rw [hflight]; exact h.split, by rw [hflight]; exact h.outstanding, h.asleep⟩

theorem Inv.workDone (h : s.Inv) {rest : Multiset ι} (hitem : s.finishing = item ::ₘ rest) :
    (s.workDone item rest).Inv := by
  have hpending : ∑ u, ((s.workDone item rest).callers u).pending =
      ∑ u, (s.callers u).pending := by
    refine Finset.sum_congr rfl fun u _ => ?_
    rw [workDone_callers]
    split_ifs
    · exact PoolCaller.wake_pending _
    · rfl
  have hflight : s.inFlight = item ::ₘ (s.workDone item rest).inFlight := by
    rw [inFlight, inFlight, hpending, hitem, Multiset.add_cons]
    rfl
  have hout := h.outstanding
  rw [hflight, Multiset.card_cons] at hout
  constructor
  · rw [show (s.workDone item rest).counted = s.counted from rfl, h.split, hflight,
      show (s.workDone item rest).done = item ::ₘ s.done from rfl, Multiset.add_cons,
      Multiset.cons_add]
  · have := toNat_pred (x := s.outstanding) (by omega)
    change (s.outstanding - 1).toNat = _
    omega
  · intro u hu hzero
    rw [workDone_callers, if_pos (show s.outstanding - 1 = 0 from hzero)] at hu
    exact PoolCaller.wake_ne_asleep _ hu

theorem Inv.isIdle_iff (h : s.Inv) : s.isIdle = true ↔ s.inFlight = 0 := by
  rw [isIdle, beq_iff_eq, ← Multiset.card_eq_zero, ← h.outstanding]
  exact ⟨fun hzero => by rw [hzero]; rfl, fun hzero => BitVec.eq_of_toNat_eq hzero⟩

variable [DecidableEq τ]

theorem inFlight_setCaller (s : ThreadsPool τ ι) (t : τ) (c : PoolCaller ι) :
    (s.setCaller t c).inFlight + (s.callers t).pending = s.inFlight + c.pending := by
  have hsum := Threads.sum_update PoolCaller.pending s.callers t c
  change ∑ u, (Function.update s.callers t c u).pending + ↑s.queue + s.running + s.finishing + _ = _
  calc
    _ = ∑ u, (Function.update s.callers t c u).pending + (s.callers t).pending +
        (↑s.queue + s.running + s.finishing) := by abel
    _ = s.inFlight + c.pending := by
      rw [hsum, inFlight]
      abel

theorem inFlight_setCaller_of_eq (h : c.pending = (s.callers t).pending) :
    (s.setCaller t c).inFlight = s.inFlight := by
  have := s.inFlight_setCaller t c
  rw [h] at this
  exact add_right_cancel this

theorem Inv.setCaller (h : s.Inv) (hpending : c.pending = (s.callers t).pending)
    (hasleep : c = .asleep → s.outstanding ≠ 0) : (s.setCaller t c).Inv where
  split := by
    rw [inFlight_setCaller_of_eq hpending]
    exact h.split
  outstanding := by
    rw [inFlight_setCaller_of_eq hpending]
    exact h.outstanding
  asleep u hu := by
    by_cases hut : u = t
    · subst hut
      exact hasleep (by simpa [ThreadsPool.setCaller] using hu)
    · exact h.asleep u (by simpa [ThreadsPool.setCaller, hut] using hu)

theorem Inv.count (h : s.Inv) (hout : s.callers t = .outside)
    (hroom : s.outstanding ≠ BitVec.allOnes 32) : (s.count t item).Inv := by
  have hflight : (s.count t item).inFlight = item ::ₘ s.inFlight := by
    have := s.inFlight_setCaller t (.pushing item)
    rw [hout] at this
    exact (add_zero _).symm.trans (this.trans (Multiset.add_comm _ _))
  have hout := h.outstanding
  constructor
  · rw [hflight, Multiset.cons_add]
    change item ::ₘ s.counted = item ::ₘ (s.inFlight + s.done)
    rw [h.split]
  · rw [hflight, Multiset.card_cons, ← hout]
    exact toNat_succ hroom
  · intro u hu hzero
    have := toNat_succ hroom
    rw [show s.outstanding + 1 = 0 from hzero] at this
    exact absurd this.symm (Nat.succ_ne_zero _)

theorem Inv.push (h : s.Inv) (hpush : s.callers t = .pushing item) : (s.push t item).Inv := by
  have hflight : (s.push t item).inFlight = s.inFlight := by
    have hset := s.inFlight_setCaller t .outside
    rw [hpush] at hset
    change (s.setCaller t .outside).inFlight + {item} = s.inFlight + 0 at hset
    rw [add_zero] at hset
    rw [← hset]
    change ∑ u, (Function.update s.callers t .outside u).pending + ↑(s.queue ++ [item]) +
      s.running + s.finishing = ∑ u, (Function.update s.callers t .outside u).pending + ↑s.queue +
        s.running + s.finishing + {item}
    rw [← Multiset.coe_add, Multiset.coe_singleton]
    abel
  refine ⟨by rw [hflight]; exact h.split, by rw [hflight]; exact h.outstanding, fun u hu => ?_⟩
  by_cases hut : u = t
  · subst hut
    simp [ThreadsPool.push, ThreadsPool.setCaller] at hu
  · exact h.asleep u (by simpa [ThreadsPool.push, ThreadsPool.setCaller, hut] using hu)

theorem Inv.work (h : s.Inv) (hwork : Work maxThreads s s') : s'.Inv := by
  cases hwork with
  | push hpush => exact h.push hpush
  | take hqueue hfree =>
    apply h.of_moved
    rw [hqueue, ← Multiset.cons_coe, Multiset.add_cons, Multiset.cons_add, Multiset.cons_add,
      Multiset.cons_add]
  | finish hrunning =>
    apply h.of_moved
    rw [hrunning, Multiset.add_cons, Multiset.add_cons, Multiset.cons_add]
  | workDone hitem => exact h.workDone hitem
  | @look t hwaits =>
    refine h.setCaller ?_ ?_
    · rw [hwaits]
      split_ifs <;> rfl
    · split_ifs with hzero
      · nofun
      · exact fun _ => hzero

theorem Inv.works (h : s.Inv) (hrun : Relation.ReflTransGen (Work maxThreads) s s') : s'.Inv := by
  induction hrun with
  | refl => exact h
  | tail _ hwork ih => exact ih.work hwork

theorem Inv.step (h : s.Inv) (hstep : Step maxThreads s s') : s'.Inv := by
  cases hstep with
  | work hwork => exact h.work hwork
  | count item hout hroom => exact h.count hout hroom
  | wait hout => exact h.setCaller (by rw [hout]; rfl) nofun
  | spurious hasleep => exact h.setCaller (by rw [hasleep]; rfl) nofun

def Reachable (maxThreads : ℕ) (s : ThreadsPool τ ι) : Prop :=
  Relation.ReflTransGen (Step maxThreads) setup s

theorem Reachable.inv (h : Reachable maxThreads s) : s.Inv := by
  induction h with
  | refl => exact Inv.setup
  | tail _ hstep ih => exact ih.step hstep

/-- `threads_pool_wait_idle()` returns only once every item that was counted until then, by any
thread, has been run and dropped, each as often as it was counted. -/
theorem wait_idle_returns (maxThreads : ℕ) (s s' : ThreadsPool τ ι) (t : τ)
    (h : Reachable maxThreads s) (hstep : Step maxThreads s s') (hwaits : s.callers t = .waiting)
    (hreturned : s'.callers t = .outside) :
    s'.inFlight = 0 ∧ s'.done = s'.counted := by
  have hinv := h.inv
  have hsame : ∀ u c, s.callers u ≠ .waiting →
      (s.setCaller u c).callers t = .waiting := fun u c hne => by
    have htu : t ≠ u := fun heq => hne (heq ▸ hwaits)
    rw [setCaller_callers, if_neg htu, hwaits]
  have hinv' := hinv.step hstep
  suffices hzero : s'.outstanding = 0 by
    have hflight := hinv'.isIdle_iff.mp (by rw [isIdle, hzero]; rfl)
    exact ⟨hflight, by rw [hinv'.split, hflight, zero_add]⟩
  cases hstep with
  | work hwork =>
    cases hwork with
    | @push u item hpush =>
      rw [show (s.push u item).callers t = .waiting from hsame u _ (by rw [hpush]; nofun)]
        at hreturned
      cases hreturned
    | take hqueue hfree =>
      rw [show s.callers t = .outside from hreturned] at hwaits
      cases hwaits
    | finish hrunning =>
      rw [show s.callers t = .outside from hreturned] at hwaits
      cases hwaits
    | @workDone item rest hitem =>
      rw [workDone_callers, hwaits] at hreturned
      split_ifs at hreturned
      · cases hreturned
    | @look u hlooks =>
      by_contra hne
      change s.outstanding ≠ 0 at hne
      rw [look, if_neg hne, setCaller_callers, hwaits] at hreturned
      split_ifs at hreturned
  | @count u item hout hroom =>
    rw [show (s.count u item).callers t = .waiting from hsame u _ (by rw [hout]; nofun)]
      at hreturned
    cases hreturned
  | @wait u hout =>
    rw [hsame u _ (by rw [hout]; nofun)] at hreturned
    cases hreturned
  | @spurious u hasleep =>
    rw [hsame u _ (by rw [hasleep]; nofun)] at hreturned
    cases hreturned

end Inv

/-- A pool of one thread: one thread pushes an item, and another that waits meanwhile has gone to
sleep before the item is done. -/
theorem waiter_woken : ∃ s : ThreadsPool Bool ℕ, Reachable 1 s ∧ s.callers true = .waiting ∧
    (s.look true).callers true = .outside ∧ s.counted = {7} := by
  have h₀ : Reachable 1 (setup : ThreadsPool Bool ℕ) := .refl
  have h₁ := h₀.tail (.count 7 (t := false) rfl (by decide))
  have h₂ := h₁.tail (.wait (t := true) rfl)
  have h₃ := h₂.tail (.work (.look (t := true) rfl))
  have h₄ := h₃.tail (.work (@Work.push Bool ℕ _ 1 _ false 7 rfl))
  have h₅ := h₄.tail (.work (@Work.take Bool ℕ _ 1 _ 7 [] rfl (by decide)))
  have h₆ := h₅.tail (.work (@Work.finish Bool ℕ _ 1 _ 7 0 rfl))
  have h₇ := h₆.tail (.work (@Work.workDone Bool ℕ _ 1 _ 7 0 rfl))
  exact ⟨_, h₇, rfl, rfl, rfl⟩

theorem wait_idle_returns_woken : ∃ s : ThreadsPool Bool ℕ, Reachable 1 s ∧
    s.callers true = .waiting ∧ (s.look true).done = {7} := by
  obtain ⟨s, h, hwaits, hreturned, hcounted⟩ := waiter_woken
  have hdone := (wait_idle_returns 1 s (s.look true) true h (.work (.look hwaits)) hwaits
    hreturned).2
  exact ⟨s, h, hwaits, hdone.trans hcounted⟩

section Progress

variable [Fintype τ]

def load (s : ThreadsPool τ ι) : ℕ :=
  4 * ∑ t, (s.callers t).pending.card + 3 * s.queue.length + 2 * s.running.card + s.finishing.card

/-- Every step that needs no one to call the pool makes this smaller: a dropped item may wake all
the threads, but then there is one item less. -/
def cost (s : ThreadsPool τ ι) : ℕ :=
  s.load * (Fintype.card τ + 1) + ∑ t, (s.callers t).looks

variable {maxThreads : ℕ} {s s' : ThreadsPool τ ι} {t : τ} {c : PoolCaller ι} {item : ι}

theorem looks_le (s : ThreadsPool τ ι) : ∑ t, (s.callers t).looks ≤ Fintype.card τ := by
  calc
    ∑ t, (s.callers t).looks ≤ ∑ _t : τ, 1 := Finset.sum_le_sum fun t _ => PoolCaller.looks_le _
    _ = Fintype.card τ := by simp

theorem cost_workDone {rest : Multiset ι} (hitem : s.finishing = item ::ₘ rest) :
    (s.workDone item rest).cost < s.cost := by
  have hpending : ∑ u, ((s.workDone item rest).callers u).pending.card =
      ∑ u, (s.callers u).pending.card := by
    refine Finset.sum_congr rfl fun u _ => ?_
    rw [workDone_callers]
    split_ifs
    · rw [PoolCaller.wake_pending]
    · rfl
  have hload : s.load = (s.workDone item rest).load + 1 := by
    rw [load, load, hpending, hitem, Multiset.card_cons]
    rfl
  have hlooks := (s.workDone item rest).looks_le
  rw [cost, cost, hload, Nat.add_mul]
  omega

variable [DecidableEq τ]

theorem cost_push (hpush : s.callers t = .pushing item) : (s.push t item).cost < s.cost := by
  have hpending : ∑ u, ((s.push t item).callers u).pending.card + 1 =
      ∑ u, (s.callers u).pending.card := by
    have hsum := Threads.sum_update (fun c : PoolCaller ι => c.pending.card) s.callers t .outside
    rw [hpush] at hsum
    exact hsum
  have hlooks : ∑ u, ((s.push t item).callers u).looks = ∑ u, (s.callers u).looks := by
    have hsum := Threads.sum_update PoolCaller.looks s.callers t .outside
    rw [hpush] at hsum
    exact hsum
  have hqueue : (s.push t item).queue.length = s.queue.length + 1 := List.length_append
  have hload : s.load = (s.push t item).load + 1 := by
    rw [load, load, ← hpending, hqueue]
    change _ = _ + 2 * s.running.card + s.finishing.card + 1
    omega
  rw [cost, cost, hload, hlooks, Nat.add_mul]
  omega

theorem cost_look (hlooks : s.callers t = .waiting) : (s.look t).cost < s.cost := by
  obtain ⟨c, hc, hcount, hnone⟩ : ∃ c, s.look t = s.setCaller t c ∧ c.pending = 0 ∧ c.looks = 0 :=
    ⟨_, rfl, by split_ifs <;> rfl, by split_ifs <;> rfl⟩
  have hpending := Threads.sum_update (fun c : PoolCaller ι => c.pending.card) s.callers t c
  have hsum := Threads.sum_update PoolCaller.looks s.callers t c
  rw [hlooks] at hpending hsum
  have hwaiting : (PoolCaller.waiting : PoolCaller ι).pending = 0 ∧
      (PoolCaller.waiting : PoolCaller ι).looks = 1 := ⟨rfl, rfl⟩
  simp only [hcount, hwaiting.1, Multiset.card_zero, add_zero] at hpending
  rw [hnone, hwaiting.2] at hsum
  have hload : s.load = (s.setCaller t c).load := by
    simp only [load, setCaller, hpending]
  rw [hc, cost, cost, hload]
  change _ + ∑ u, (Function.update s.callers t c u).looks < _
  omega

theorem Work.cost_lt (h : Work maxThreads s s') : s'.cost < s.cost := by
  cases h with
  | push hpush => exact cost_push hpush
  | @take item rest hqueue hfree =>
    refine Nat.add_lt_add_right (Nat.mul_lt_mul_of_pos_right ?_ (Nat.succ_pos _)) _
    simp only [load, hqueue, List.length_cons, Multiset.card_cons]
    omega
  | @finish item rest hrunning =>
    refine Nat.add_lt_add_right (Nat.mul_lt_mul_of_pos_right ?_ (Nat.succ_pos _)) _
    simp only [load, hrunning, Multiset.card_cons]
    omega
  | workDone hitem => exact cost_workDone hitem
  | look hlooks => exact cost_look hlooks

/-- Where nothing can go on, every thread has left the pool and every item has been run. -/
theorem Inv.settled_of_stuck (h : s.Inv) (hthreads : 0 < maxThreads)
    (hstuck : ∀ s', ¬ Work maxThreads s s') :
    (∀ t, s.callers t = .outside) ∧ s.done = s.counted := by
  have hpushing : ∀ t item, s.callers t ≠ .pushing item :=
    fun t item hpush => hstuck _ (.push hpush)
  have hlooking : ∀ t, s.callers t ≠ .waiting := fun t hwaits => hstuck _ (.look hwaits)
  have hfinishing : s.finishing = 0 := by
    by_contra hne
    obtain ⟨item, hmem⟩ := Multiset.exists_mem_of_ne_zero hne
    obtain ⟨rest, hitem⟩ := Multiset.exists_cons_of_mem hmem
    exact hstuck _ (.workDone hitem)
  have hrunning : s.running = 0 := by
    by_contra hne
    obtain ⟨item, hmem⟩ := Multiset.exists_mem_of_ne_zero hne
    obtain ⟨rest, hitem⟩ := Multiset.exists_cons_of_mem hmem
    exact hstuck _ (.finish hitem)
  have hqueue : s.queue = [] := by
    cases hitems : s.queue with
    | nil => rfl
    | cons item rest =>
      exact absurd (.take hitems (by simpa [hrunning, hfinishing] using hthreads)) (hstuck _)
  have hpending : ∑ t, (s.callers t).pending = 0 := by
    refine Finset.sum_eq_zero fun t _ => ?_
    cases hcaller : s.callers t with
    | pushing item => exact absurd hcaller (hpushing t item)
    | outside => rfl
    | waiting => rfl
    | asleep => rfl
  have hflight : s.inFlight = 0 := by
    rw [inFlight, hpending, hqueue, hrunning, hfinishing]
    rfl
  refine ⟨fun t => ?_, by rw [h.split, hflight, zero_add]⟩
  cases hcaller : s.callers t with
  | pushing item => exact absurd hcaller (hpushing t item)
  | outside => rfl
  | waiting => exact absurd hcaller (hlooking t)
  | asleep =>
    -- it would have been woken by the last item
    have hidle := h.isIdle_iff.mpr hflight
    rw [isIdle, beq_iff_eq] at hidle
    exact absurd hidle (h.asleep t hcaller)

/-- No thread that waits is forgotten. From any state the pool comes to, only so many steps are
left that need no one to call it; and where none is left, everyone who waited has returned and every
item has been run. -/
theorem waiters_return (maxThreads : ℕ) (s : ThreadsPool τ ι) (h : Reachable maxThreads s)
    (hthreads : 0 < maxThreads) :
    (∀ (f : ℕ → ThreadsPool τ ι) (n : ℕ), f 0 = s →
        (∀ k < n, Work maxThreads (f k) (f (k + 1))) → n ≤ s.cost) ∧
      ∀ s', Relation.ReflTransGen (Work maxThreads) s s' → (∀ s'', ¬ Work maxThreads s' s'') →
        (∀ t, s'.callers t = .outside) ∧ s'.done = s'.counted := by
  constructor
  · intro f n hstart hsteps
    have hcost : ∀ k ≤ n, (f k).cost + k ≤ s.cost := by
      intro k hk
      induction k with
      | zero => rw [hstart, add_zero]
      | succ k ih =>
        have := (hsteps k hk).cost_lt
        have := ih (Nat.le_of_succ_le hk)
        omega
    have := hcost n le_rfl
    omega
  · intro s' hrun hstuck
    exact (h.inv.works hrun).settled_of_stuck hthreads hstuck

end Progress

theorem waiters_return_woken : ∃ s : ThreadsPool Bool ℕ, Reachable 1 s ∧
    s.callers true = .waiting ∧ ∀ s', Relation.ReflTransGen (Work 1) s s' →
      (∀ s'', ¬ Work 1 s' s'') → s'.callers true = .outside := by
  obtain ⟨s, h, hwaits, -⟩ := waiter_woken
  exact ⟨s, h, hwaits, fun s' hrun hstuck =>
    ((waiters_return 1 s h Nat.one_pos).2 s' hrun hstuck).1 true⟩

end ThreadsPool

end Oans
