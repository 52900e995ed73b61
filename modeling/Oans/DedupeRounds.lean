import Mathlib.Data.List.Perm.Basic
import Mathlib.Data.List.MinMax
import Mathlib.Tactic

/-!
# The rounds of one dedupe request

`dedupe_extents()` submits the queued destinations again and again, at most `DEDUPE_ROUND_LEN`
bytes at a time. Requests move from the queue to the ones in progress and from there to the
completed ones or back, while the source moves on by the most any destination got done.
-/

namespace Oans

def MAX_DEDUPES_PER_IOCTL : ℕ := 120

def DEDUPE_ROUND_LEN : ℕ := 32 * 1024 * 1024

def EINVAL : ℕ := 22

structure DedupeDest (F : Type) where
  file : F
  loff : ℕ
  unshared : ℕ
  deriving DecidableEq

structure DedupeReq (F : Type) where
  reqFile : F
  reqLoff : ℕ
  reqUnshared : ℕ
  reqTotal : ℕ
  reqStatus : ℤ
  reqIdx : ℕ
  deriving DecidableEq

structure DedupeCtxt (F : Type) where
  origLen : ℕ
  origFileOff : ℕ
  len : ℕ
  ioctlFile : F
  ioctlFileOff : ℕ
  maxQueable : ℕ
  numQueued : ℕ
  aligned : Bool
  queued : List (DedupeReq F)
  inProgress : List (DedupeReq F)
  completed : List (DedupeReq F)
  deriving DecidableEq

/-- What the kernel answers for one destination. -/
structure RangeInfo where
  bytesDeduped : ℕ
  status : ℤ
  deriving DecidableEq

structure FileDedupeRange (F : Type) where
  srcOffset : ℕ
  srcLength : ℕ
  info : List (F × ℕ)
  deriving DecidableEq

/-- The answers the `FIDEDUPERANGE` calls get, one after another, and what the source file looks
like. A destination is never reported to have gone past the length asked for. -/
structure DedupeKernel (F : Type) where
  ioctl : ℕ → FileDedupeRange F → Except ℕ (List RangeInfo)
  answersEach : ∀ call same infos, ioctl call same = .ok infos →
    infos.length = same.info.length
  bounded : ∀ call same infos, ioctl call same = .ok infos →
    ∀ info ∈ infos, info.bytesDeduped ≤ same.srcLength
  srcSize : Option ℕ
  blocksize : ℕ

/-- `dedupe_shareable_len()`; the mask takes the bits below the block size away. -/
def dedupeShareableLen (blocksize len : ℕ) : ℕ :=
  if len < blocksize then len else len - (len &&& (blocksize - 1))

variable {F : Type}

def newDedupeCtxt (maxExtents loff elen : ℕ) (ioctlFile : F) : DedupeCtxt F where
  origLen := elen
  origFileOff := loff
  len := elen
  ioctlFile := ioctlFile
  ioctlFileOff := loff
  maxQueable := min maxExtents MAX_DEDUPES_PER_IOCTL - 1
  numQueued := 0
  aligned := false
  queued := []
  inProgress := []
  completed := []

namespace DedupeReq

/-- `new_dedupe_req()`. -/
def new (dest : DedupeDest F) : DedupeReq F := ⟨dest.file, dest.loff, dest.unshared, 0, 0, 0⟩

def dest (req : DedupeReq F) : DedupeDest F :=
  ⟨req.reqFile, req.reqLoff - req.reqTotal, req.reqUnshared⟩

def progress (req : DedupeReq F) : DedupeDest F × ℕ × ℕ := (req.dest, req.reqLoff, req.reqTotal)

def infoOf (infos : List RangeInfo) (req : DedupeReq F) : RangeInfo :=
  infos.getD req.reqIdx ⟨0, 0⟩

def advance (info : RangeInfo) (req : DedupeReq F) : DedupeReq F :=
  { req with
    reqLoff := req.reqLoff + info.bytesDeduped
    reqTotal := req.reqTotal + info.bytesDeduped }

end DedupeReq

namespace DedupeCtxt

/-- `add_extent_to_dedupe()`; none where its assertion fires, and otherwise how many more fit. -/
def addExtentToDedupe (ctxt : DedupeCtxt F) (dest : DedupeDest F) : Option (ℕ × DedupeCtxt F) :=
  if ctxt.maxQueable ≤ ctxt.numQueued then none
  else some (ctxt.maxQueable - (ctxt.numQueued + 1),
    { ctxt with queued := ctxt.queued ++ [.new dest], numQueued := ctxt.numQueued + 1 })

def addExtents (ctxt : DedupeCtxt F) : List (DedupeDest F) → Option (DedupeCtxt F)
  | [] => some ctxt
  | dest :: dests => (ctxt.addExtentToDedupe dest).bind fun queued => queued.2.addExtents dests

def sameLength (ctxt : DedupeCtxt F) (blocksize : ℕ) : ℕ :=
  if ctxt.aligned then dedupeShareableLen blocksize (min ctxt.len DEDUPE_ROUND_LEN)
  else min ctxt.len DEDUPE_ROUND_LEN

/-- `populate_dedupe_request()`; none where the assertion of `add_dedupe_request()` fires. -/
def populateDedupeRequest (ctxt : DedupeCtxt F) (blocksize : ℕ) :
    Option (DedupeCtxt F × FileDedupeRange F) :=
  if ctxt.maxQueable < ctxt.queued.length then none
  else
    let reqs := ctxt.queued.mapIdx fun i req => { req with reqIdx := i }
    some ({ ctxt with
        queued := []
        inProgress := ctxt.inProgress ++ reqs
        numQueued := ctxt.numQueued - reqs.length },
      ⟨ctxt.ioctlFileOff, ctxt.sameLength blocksize, reqs.map fun req => (req.reqFile, req.reqLoff)⟩)

/-- One destination's turn in `process_dedupes()`. -/
def settle (infos : List RangeInfo) (ctxt : DedupeCtxt F) (req : DedupeReq F) : DedupeCtxt F :=
  let info := req.infoOf infos
  let req := req.advance info
  if info.status ≠ 0 ∨ ctxt.origLen ≤ req.reqTotal then
    { ctxt with completed := ctxt.completed ++ [{ req with reqStatus := info.status }] }
  else
    { ctxt with queued := ctxt.queued ++ [req], numQueued := ctxt.numQueued + 1 }

def maxDeduped (ctxt : DedupeCtxt F) (infos : List RangeInfo) : ℕ :=
  (ctxt.inProgress.map fun req => (req.infoOf infos).bytesDeduped).foldr max 0

def processDedupes (ctxt : DedupeCtxt F) (infos : List RangeInfo) (blocksize : ℕ) :
    DedupeCtxt F :=
  let settled := ctxt.inProgress.foldl (settle infos) { ctxt with inProgress := [] }
  let moved := { settled with
    len := ctxt.len - ctxt.maxDeduped infos
    ioctlFileOff := ctxt.ioctlFileOff + ctxt.maxDeduped infos }
  -- going around again would only get EINVAL from an old kernel
  if moved.aligned ∧ moved.len < blocksize then
    { moved with completed := moved.queued ++ moved.completed, queued := [] }
  else moved

/-- `clamp_len_to_ioctl_file()`, with the size `fstat()` tells, if it does. -/
def clampLenToIoctlFile (ctxt : DedupeCtxt F) (srcSize : Option ℕ) : DedupeCtxt F :=
  match srcSize with
  | none => ctxt
  | some size =>
    if ctxt.ioctlFileOff + ctxt.len ≤ size then ctxt
    else if size ≤ ctxt.ioctlFileOff then
      { ctxt with completed := ctxt.queued ++ ctxt.completed, queued := [], numQueued := 0 }
    else { ctxt with len := size - ctxt.ioctlFileOff, origLen := size - ctxt.ioctlFileOff }

def failInFlight (ctxt : DedupeCtxt F) (err : ℕ) : DedupeCtxt F :=
  { ctxt with
    completed := ctxt.completed ++
      (ctxt.inProgress ++ ctxt.queued).map fun req => { req with reqStatus := -(err : ℤ) }
    inProgress := []
    queued := [] }

end DedupeCtxt

structure DedupeRound (F : Type) where
  ctxt : DedupeCtxt F
  answer : Except ℕ (List RangeInfo)

inductive DedupeEnd (F : Type)
  /-- an assertion fired -/
  | aborts
  | returns (err : ℕ) (ctxt : DedupeCtxt F) (rounds : List (DedupeRound F))

namespace DedupeKernel

variable (k : DedupeKernel F)

/-- The ioctl of a round, and once more with whole blocks where the first destination is refused. -/
def submit (call : ℕ) (ctxt : DedupeCtxt F) (same : FileDedupeRange F) :
    ℕ × DedupeCtxt F × Except ℕ (List RangeInfo) :=
  match k.ioctl call same with
  | .error err => (call + 1, ctxt, .error err)
  | .ok infos =>
    if (infos.head?.map RangeInfo.status) = some (-(EINVAL : ℤ)) ∧ ctxt.aligned = false then
      let ctxt := { ctxt with aligned := true }
      let length := ctxt.sameLength k.blocksize
      if length ≠ same.srcLength then
        (call + 2, ctxt, k.ioctl (call + 1) { same with srcLength := length })
      else (call + 1, ctxt, .ok infos)
    else (call + 1, ctxt, .ok infos)

/-- The round loop of `dedupe_extents()`; none where `fuel` does not last. -/
def roundLoop : ℕ → ℕ → List (DedupeRound F) → DedupeCtxt F → Option (DedupeEnd F)
  | 0, _, _, _ => none
  | fuel + 1, call, rounds, ctxt =>
    if ctxt.queued.isEmpty then some (.returns 0 ctxt rounds)
    else
      match ctxt.populateDedupeRequest k.blocksize with
      | none => some .aborts
      | some (populated, same) =>
        match k.submit call populated same with
        | (_, submitted, .error err) =>
          some (.returns err (submitted.failInFlight err) (rounds ++ [⟨populated, .error err⟩]))
        | (call, submitted, .ok infos) =>
          let rounds := rounds ++ [⟨populated, .ok infos⟩]
          let processed := submitted.processDedupes infos k.blocksize
          if (infos.map RangeInfo.bytesDeduped).sum = 0 ∧ processed.queued.isEmpty = false then
            some (.returns 0 { processed with
              completed := processed.queued ++ processed.completed, queued := [] } rounds)
          else roundLoop fuel call rounds processed

def dedupeExtents (fuel : ℕ) (ctxt : DedupeCtxt F) : Option (DedupeEnd F) :=
  k.roundLoop fuel 0 [] (ctxt.clampLenToIoctlFile k.srcSize)

end DedupeKernel

structure DedupeResult (F : Type) where
  status : ℤ
  bytesFreed : ℕ
  bytesDone : ℕ
  file : F
  deriving DecidableEq

def DedupeReq.result (req : DedupeReq F) : DedupeResult F :=
  ⟨req.reqStatus, if req.reqUnshared < req.reqTotal then req.reqUnshared else req.reqTotal,
    req.reqTotal, req.reqFile⟩

namespace DedupeCtxt

/-- `pop_one_dedupe_result()`, which says whether it was the last; none where its assertion
fires. -/
def popOneDedupeResult (ctxt : DedupeCtxt F) : Option (Bool × DedupeResult F × DedupeCtxt F) :=
  match ctxt.completed with
  | [] => none
  | req :: rest => some (rest.isEmpty, req.result, { ctxt with completed := rest })

/-- The loop of `process_dedupe_results()`, which pops until it is told that was the last. -/
def popResults : ℕ → DedupeCtxt F → Option (List (DedupeResult F) × DedupeCtxt F)
  | 0, _ => none
  | fuel + 1, ctxt =>
    match ctxt.popOneDedupeResult with
    | none => none
    | some (true, result, ctxt) => some ([result], ctxt)
    | some (false, result, ctxt) =>
      (popResults fuel ctxt).map fun popped => (result :: popped.1, popped.2)

end DedupeCtxt

/-! ## Every request is in one place -/

structure Accounted (dests : List (DedupeDest F)) (bound : ℕ) (reqs : List (DedupeReq F)) :
    Prop where
  perm : (reqs.map DedupeReq.dest).Perm dests
  moved : ∀ req ∈ reqs, req.reqTotal ≤ req.reqLoff
  total : ∀ req ∈ reqs, req.reqTotal ≤ bound

namespace Accounted

variable {dests : List (DedupeDest F)} {bound : ℕ} {reqs reqs' : List (DedupeReq F)}

theorem of_perm (h : Accounted dests bound reqs) (hperm : reqs'.Perm reqs) :
    Accounted dests bound reqs' :=
  ⟨(hperm.map _).trans h.perm, fun req hreq => h.moved req (hperm.subset hreq),
    fun req hreq => h.total req (hperm.subset hreq)⟩

theorem mono (h : Accounted dests bound reqs) {bound' : ℕ} (hle : bound ≤ bound') :
    Accounted dests bound' reqs :=
  ⟨h.perm, h.moved, fun req hreq => (h.total req hreq).trans hle⟩

/-- One request is changed, and stays the same destination. -/
theorem replace {req req' : DedupeReq F} (h : Accounted dests bound (req :: reqs))
    (hdest : req'.dest = req.dest) (hmoved : req'.reqTotal ≤ req'.reqLoff)
    (htotal : req'.reqTotal ≤ bound) : Accounted dests bound (req' :: reqs) where
  perm := by simpa [hdest] using h.perm
  moved := List.forall_mem_cons.mpr ⟨hmoved, (List.forall_mem_cons.mp h.moved).2⟩
  total := List.forall_mem_cons.mpr ⟨htotal, (List.forall_mem_cons.mp h.total).2⟩

theorem of_progress (h : Accounted dests bound reqs)
    (hprogress : reqs'.map DedupeReq.progress = reqs.map DedupeReq.progress) :
    Accounted dests bound reqs' := by
  have hmem : ∀ req ∈ reqs', ∃ old ∈ reqs, old.progress = req.progress := fun req hreq =>
    List.mem_map.mp (hprogress ▸ List.mem_map_of_mem hreq)
  have hdests : ∀ l : List (DedupeReq F),
      l.map DedupeReq.dest = (l.map DedupeReq.progress).map Prod.fst := fun l => by
    rw [List.map_map]
    rfl
  refine ⟨?_, fun req hreq => ?_, fun req hreq => ?_⟩
  · rw [hdests, hprogress, ← hdests]
    exact h.perm
  · obtain ⟨old, hold, heq⟩ := hmem req hreq
    have := h.moved old hold
    simp only [DedupeReq.progress, Prod.mk.injEq] at heq
    omega
  · obtain ⟨old, hold, heq⟩ := hmem req hreq
    have := h.total old hold
    simp only [DedupeReq.progress, Prod.mk.injEq] at heq
    omega

end Accounted

namespace DedupeCtxt

variable {dests : List (DedupeDest F)} {bound : ℕ} {infos : List RangeInfo}

theorem settle_accounts {ctxt : DedupeCtxt F} {req : DedupeReq F} {rest : List (DedupeReq F)}
    (h : Accounted dests bound (ctxt.queued ++ ctxt.completed ++ req :: rest))
    (hreq : req.reqTotal + (req.infoOf infos).bytesDeduped ≤ bound) :
    Accounted dests bound ((settle infos ctxt req).queued ++ (settle infos ctxt req).completed ++
      rest) := by
  have hmoved := h.moved req (by simp)
  have hfirst : Accounted dests bound (req :: (ctxt.queued ++ ctxt.completed ++ rest)) :=
    h.of_perm List.perm_middle.symm
  have hstep : ∀ req' : DedupeReq F, req'.reqFile = req.reqFile →
      req'.reqUnshared = req.reqUnshared →
      req'.reqLoff = req.reqLoff + (req.infoOf infos).bytesDeduped →
      req'.reqTotal = req.reqTotal + (req.infoOf infos).bytesDeduped →
      Accounted dests bound (req' :: (ctxt.queued ++ ctxt.completed ++ rest)) := by
    intro req' hfile hunshared hloff htotal
    refine hfirst.replace ?_ (by omega) (by omega)
    simp only [DedupeReq.dest, hfile, hunshared, hloff, htotal, Nat.add_sub_add_right]
  unfold settle
  dsimp only
  split_ifs
  · refine (hstep { req.advance (req.infoOf infos) with reqStatus := (req.infoOf infos).status }
      rfl rfl rfl rfl).of_perm ?_
    rw [← List.append_assoc, List.append_assoc _ [_] rest]
    exact List.perm_middle
  · refine (hstep (req.advance (req.infoOf infos)) rfl rfl rfl rfl).of_perm ?_
    rw [List.append_assoc ctxt.queued, List.append_assoc ctxt.queued,
      List.append_assoc ctxt.queued, List.append_assoc [_]]
    exact List.perm_middle

/-- Only the two lists and the count of what is queued change. -/
theorem settle_frame (ctxt : DedupeCtxt F) (req : DedupeReq F) : ∃ queued completed numQueued,
    settle infos ctxt req =
      { ctxt with queued := queued, completed := completed, numQueued := numQueued } := by
  unfold settle
  dsimp only
  split_ifs
  · exact ⟨_, _, _, rfl⟩
  · exact ⟨_, _, _, rfl⟩

theorem mem_queued_settle {ctxt : DedupeCtxt F} {req r : DedupeReq F}
    (hr : r ∈ (settle infos ctxt req).queued) : r ∈ ctxt.queued ∨
      (req.infoOf infos).status = 0 ∧ r = req.advance (req.infoOf infos) := by
  unfold settle at hr
  dsimp only at hr
  split_ifs at hr with hdone
  · exact Or.inl hr
  · push Not at hdone
    rcases List.mem_append.mp hr with hold | hnew
    · exact Or.inl hold
    · exact Or.inr ⟨hdone.1, List.mem_singleton.mp hnew⟩

theorem foldl_settle (reqs : List (DedupeReq F)) (ctxt : DedupeCtxt F)
    (h : Accounted dests bound (ctxt.queued ++ ctxt.completed ++ reqs))
    (hreqs : ∀ req ∈ reqs, req.reqTotal + (req.infoOf infos).bytesDeduped ≤ bound) :
    ∃ queued completed numQueued, reqs.foldl (settle infos) ctxt =
        { ctxt with queued := queued, completed := completed, numQueued := numQueued } ∧
      Accounted dests bound (queued ++ completed) ∧
      ∀ r ∈ queued, r ∈ ctxt.queued ∨
        ∃ req ∈ reqs, (req.infoOf infos).status = 0 ∧ r = req.advance (req.infoOf infos) := by
  induction reqs generalizing ctxt with
  | nil =>
    rw [List.append_nil] at h
    exact ⟨ctxt.queued, ctxt.completed, ctxt.numQueued, rfl, h, fun r hr => Or.inl hr⟩
  | cons req reqs ih =>
    obtain ⟨hreq, hreqs⟩ := List.forall_mem_cons.mp hreqs
    obtain ⟨queued₀, completed₀, numQueued₀, hframe⟩ := @settle_frame _ infos ctxt req
    obtain ⟨queued, completed, numQueued, hfold, hacc, hmem⟩ :=
      ih (settle infos ctxt req) (settle_accounts h hreq) hreqs
    refine ⟨queued, completed, numQueued, ?_, hacc, fun r hr => ?_⟩
    · rw [List.foldl_cons, hfold, hframe]
    · rcases hmem r hr with hsettled | ⟨req', hmem', hadvanced⟩
      · rcases mem_queued_settle hsettled with hold | hadvanced
        · exact Or.inl hold
        · exact Or.inr ⟨req, List.mem_cons_self, hadvanced⟩
      · exact Or.inr ⟨req', List.mem_cons_of_mem req hmem', hadvanced⟩

theorem le_maxDeduped {infos : List RangeInfo} {ctxt : DedupeCtxt F} {req : DedupeReq F}
    (hreq : req ∈ ctxt.inProgress) :
    (req.infoOf infos).bytesDeduped ≤ ctxt.maxDeduped infos :=
  List.le_max_of_le' 0 (List.mem_map_of_mem hreq) le_rfl

theorem maxDeduped_le {ctxt : DedupeCtxt F} {n : ℕ}
    (h : ∀ req ∈ ctxt.inProgress, (req.infoOf infos).bytesDeduped ≤ n) :
    ctxt.maxDeduped infos ≤ n := by
  refine List.max_le_of_forall_le _ n fun x hx => ?_
  obtain ⟨req, hreq, rfl⟩ := List.mem_map.mp hx
  exact h req hreq

structure AtRoundStart (dests : List (DedupeDest F)) (ctxt : DedupeCtxt F) : Prop where
  idle : ctxt.inProgress = []
  accounted : Accounted dests (ctxt.origLen - ctxt.len) (ctxt.queued ++ ctxt.completed)
  len_le : ctxt.len ≤ ctxt.origLen
  room : dests.length ≤ ctxt.maxQueable

structure InFlight (dests : List (DedupeDest F)) (ctxt : DedupeCtxt F) : Prop where
  taken : ctxt.queued = []
  accounted : Accounted dests (ctxt.origLen - ctxt.len) (ctxt.completed ++ ctxt.inProgress)
  len_le : ctxt.len ≤ ctxt.origLen
  room : dests.length ≤ ctxt.maxQueable

theorem processDedupes_spec {ctxt : DedupeCtxt F} (h : InFlight dests ctxt) (blocksize : ℕ)
    (hinfos : ∀ req ∈ ctxt.inProgress, (req.infoOf infos).bytesDeduped ≤ ctxt.len) :
    AtRoundStart dests (ctxt.processDedupes infos blocksize) ∧
    (ctxt.processDedupes infos blocksize).origLen = ctxt.origLen ∧
    (ctxt.processDedupes infos blocksize).len = ctxt.len - ctxt.maxDeduped infos ∧
    (ctxt.processDedupes infos blocksize).ioctlFileOff =
      ctxt.ioctlFileOff + ctxt.maxDeduped infos ∧
    ∀ r ∈ (ctxt.processDedupes infos blocksize).queued, ∃ req ∈ ctxt.inProgress,
      (req.infoOf infos).status = 0 ∧ r = req.advance (req.infoOf infos) := by
  have hmax := maxDeduped_le hinfos
  have hle := h.len_le
  have htotal : ∀ req ∈ ctxt.inProgress, req.reqTotal + (req.infoOf infos).bytesDeduped ≤
      ctxt.origLen - (ctxt.len - ctxt.maxDeduped infos) := by
    intro req hreq
    have := h.accounted.total req (List.mem_append_right _ hreq)
    have := @le_maxDeduped _ infos _ _ hreq
    omega
  have hacc : Accounted dests (ctxt.origLen - (ctxt.len - ctxt.maxDeduped infos))
      (ctxt.queued ++ ctxt.completed ++ ctxt.inProgress) := by
    rw [h.taken, List.nil_append]
    exact h.accounted.mono (by omega)
  obtain ⟨queued, completed, numQueued, hfold, hsettled, hmem⟩ :=
    foldl_settle ctxt.inProgress { ctxt with inProgress := [] } hacc htotal
  have hfrom : ∀ r ∈ queued, ∃ req ∈ ctxt.inProgress,
      (req.infoOf infos).status = 0 ∧ r = req.advance (req.infoOf infos) := by
    intro r hr
    rcases hmem r hr with hold | hnew
    · rw [h.taken] at hold
      exact absurd hold List.not_mem_nil
    · exact hnew
  unfold processDedupes
  rw [hfold]
  dsimp only
  split_ifs
  · refine ⟨⟨rfl, ?_, ?_, h.room⟩, rfl, rfl, rfl, fun r hr => absurd hr List.not_mem_nil⟩
    · exact hsettled
    · exact (Nat.sub_le _ _).trans hle
  · exact ⟨⟨rfl, hsettled, (Nat.sub_le _ _).trans hle, h.room⟩, rfl, rfl, rfl, hfrom⟩

theorem sameLength_le (ctxt : DedupeCtxt F) (blocksize : ℕ) :
    ctxt.sameLength blocksize ≤ ctxt.len := by
  unfold sameLength dedupeShareableLen
  split_ifs <;> omega

/-- There is room for the queue, and submitting it leaves every request in flight. -/
theorem populate_spec {ctxt : DedupeCtxt F} (h : AtRoundStart dests ctxt) (blocksize : ℕ) :
    ∃ populated same, ctxt.populateDedupeRequest blocksize = some (populated, same) ∧
      InFlight dests populated ∧
      populated.len = ctxt.len ∧ populated.origLen = ctxt.origLen ∧
      populated.ioctlFileOff = ctxt.ioctlFileOff ∧
      same.srcLength ≤ ctxt.len ∧ same.info.length = populated.inProgress.length ∧
      populated.inProgress = ctxt.queued.mapIdx fun i req => { req with reqIdx := i } := by
  have hroom : ¬ ctxt.maxQueable < ctxt.queued.length := by
    have hlen := h.accounted.perm.length_eq
    rw [List.length_map, List.length_append] at hlen
    have := h.room
    omega
  unfold populateDedupeRequest
  rw [if_neg hroom]
  refine ⟨_, _, rfl, ⟨rfl, ?_, h.len_le, h.room⟩, rfl, rfl, rfl, ctxt.sameLength_le blocksize, ?_, ?_⟩
  · dsimp only
    rw [h.idle, List.nil_append]
    refine (h.accounted.of_perm List.perm_append_comm).of_progress ?_
    rw [List.map_append, List.map_append]
    congr 1
    exact List.ext_getElem (by simp) fun i _ _ => by simp [DedupeReq.progress, DedupeReq.dest]
  · simp [h.idle]
  · simp [h.idle]

end DedupeCtxt

/-! ## A round, and the run of rounds -/

/-- The destinations that were not refused got the same done. -/
def SameCount (infos : List RangeInfo) : Prop :=
  ∃ count, ∀ info ∈ infos, info.status = 0 → info.bytesDeduped = count

/-- They got the same done, and no destination that was refused got further. -/
def NoneAhead (infos : List RangeInfo) : Prop :=
  ∃ count, (∀ info ∈ infos, info.status = 0 → info.bytesDeduped = count) ∧
    ∀ info ∈ infos, info.status ≠ 0 → info.bytesDeduped ≤ count

def DedupeRound.InStep (dests : List (DedupeDest F)) (loff : ℕ) (round : DedupeRound F) : Prop :=
  ∃ moved, round.ctxt.ioctlFileOff = loff + moved ∧ ∀ req ∈ round.ctxt.inProgress,
    ∃ dest ∈ dests, req.reqFile = dest.file ∧ req.reqLoff = dest.loff + moved

def DedupeRound.Fits (round : DedupeRound F) : Prop :=
  ∀ infos, round.answer = .ok infos → ∀ info ∈ infos, info.bytesDeduped ≤ round.ctxt.len

namespace DedupeKernel

open DedupeCtxt

variable {k : DedupeKernel F} {dests : List (DedupeDest F)}

/-- The answer that counts is for this round's destinations and within its length, retried or
not. -/
theorem submit_spec {call call' : ℕ} {ctxt submitted : DedupeCtxt F} {same : FileDedupeRange F}
    {answer : Except ℕ (List RangeInfo)} (hsame : same.srcLength ≤ ctxt.len)
    (h : k.submit call ctxt same = (call', submitted, answer)) :
    (∃ aligned, submitted = { ctxt with aligned := aligned }) ∧
    ∀ infos, answer = .ok infos → infos.length = same.info.length ∧
      ∀ info ∈ infos, info.bytesDeduped ≤ ctxt.len := by
  have hfirst : ∀ infos, k.ioctl call same = .ok infos → infos.length = same.info.length ∧
      ∀ info ∈ infos, info.bytesDeduped ≤ ctxt.len := fun infos hok =>
    ⟨k.answersEach _ _ _ hok, fun info hinfo => (k.bounded _ _ _ hok info hinfo).trans hsame⟩
  unfold submit at h
  cases hcall : k.ioctl call same with
  | error err =>
    rw [hcall] at h
    obtain ⟨-, rfl, rfl⟩ : _ ∧ _ ∧ _ := by simpa using h
    exact ⟨⟨ctxt.aligned, rfl⟩, fun infos hok => by simp at hok⟩
  | ok infos =>
    rw [hcall] at h
    dsimp only at h
    split_ifs at h with hrefused hshorter
    · obtain ⟨-, rfl, rfl⟩ : _ ∧ _ ∧ _ := by simpa using h
      refine ⟨⟨true, rfl⟩, fun infos hok => ?_⟩
      have hlen := k.answersEach _ _ _ hok
      have hle := k.bounded _ _ _ hok
      exact ⟨hlen, fun info hinfo => (hle info hinfo).trans (sameLength_le { ctxt with aligned := true } _)⟩
    · obtain ⟨-, rfl, rfl⟩ : _ ∧ _ ∧ _ := by simpa using h
      exact ⟨⟨true, rfl⟩, fun infos' hok => by
        obtain rfl := Except.ok.inj hok
        exact hfirst _ hcall⟩
    · obtain ⟨-, rfl, rfl⟩ : _ ∧ _ ∧ _ := by simpa using h
      exact ⟨⟨ctxt.aligned, rfl⟩, fun infos' hok => by
        obtain rfl := Except.ok.inj hok
        exact hfirst _ hcall⟩

/-- The requests in flight carry the indices of the answers. -/
theorem infoOf_mem {reqs queued : List (DedupeReq F)} {infos : List RangeInfo}
    (hreqs : reqs = queued.mapIdx fun i req => { req with reqIdx := i })
    (hlen : infos.length = reqs.length) :
    (∀ req ∈ reqs, req.infoOf infos ∈ infos) ∧
      ∀ info ∈ infos, ∃ req ∈ reqs, req.infoOf infos = info := by
  have hidx : ∀ i (hi : i < reqs.length), (reqs[i]).infoOf infos = infos[i] := by
    intro i hi
    have : (reqs[i]).reqIdx = i := by simp [hreqs]
    rw [DedupeReq.infoOf, this, List.getD_eq_getElem?_getD, List.getElem?_eq_getElem (by omega),
      Option.getD_some]
  constructor
  · intro req hreq
    obtain ⟨i, hi, rfl⟩ := List.mem_iff_getElem.mp hreq
    rw [hidx i hi]
    exact List.getElem_mem _
  · intro info hinfo
    obtain ⟨i, hi, rfl⟩ := List.mem_iff_getElem.mp hinfo
    exact ⟨reqs[i], List.getElem_mem _, hidx i (by omega)⟩

theorem maxDeduped_pos {ctxt : DedupeCtxt F} {infos : List RangeInfo}
    (hcover : ∀ info ∈ infos, ∃ req ∈ ctxt.inProgress, req.infoOf infos = info)
    (hsum : (infos.map RangeInfo.bytesDeduped).sum ≠ 0) : 0 < ctxt.maxDeduped infos := by
  by_contra hzero
  refine hsum (List.sum_eq_zero fun n hn => ?_)
  obtain ⟨info, hinfo, rfl⟩ := List.mem_map.mp hn
  obtain ⟨req, hreq, rfl⟩ := hcover info hinfo
  have := @le_maxDeduped _ infos _ _ hreq
  omega

def QueueInStep (loff : ℕ) (ctxt : DedupeCtxt F) : Prop :=
  ∀ req ∈ ctxt.queued, ctxt.ioctlFileOff = loff + req.reqTotal

theorem queueInStep_processDedupes {loff : ℕ} {ctxt : DedupeCtxt F} {infos : List RangeInfo}
    (hbefore : ∀ req ∈ ctxt.inProgress, ctxt.ioctlFileOff = loff + req.reqTotal)
    (hinfos : ∀ req ∈ ctxt.inProgress, req.infoOf infos ∈ infos) (hahead : NoneAhead infos)
    {next : DedupeCtxt F} (hoff : next.ioctlFileOff = ctxt.ioctlFileOff + ctxt.maxDeduped infos)
    (hnext : ∀ r ∈ next.queued, ∃ req ∈ ctxt.inProgress,
      (req.infoOf infos).status = 0 ∧ r = req.advance (req.infoOf infos)) :
    QueueInStep loff next := by
  obtain ⟨count, hsame, hbehind⟩ := hahead
  intro r hr
  obtain ⟨req, hreq, hstatus, rfl⟩ := hnext r hr
  have hcount := hsame _ (hinfos req hreq) hstatus
  have hle : ctxt.maxDeduped infos ≤ count := by
    refine maxDeduped_le fun req' hreq' => ?_
    by_cases hok : (req'.infoOf infos).status = 0
    · exact (hsame _ (hinfos req' hreq') hok).le
    · exact hbehind _ (hinfos req' hreq') hok
  have hge := @le_maxDeduped _ infos _ _ hreq
  have := hbefore req hreq
  simp only [DedupeReq.advance]
  omega

theorem roundLoop_of_empty (call fuel : ℕ) (rounds : List (DedupeRound F)) {ctxt : DedupeCtxt F}
    (hempty : ctxt.queued = []) :
    k.roundLoop (fuel + 1) call rounds ctxt = some (.returns 0 ctxt rounds) := by
  rw [roundLoop, if_pos (by simp [hempty])]

/-- The contexts the loop ends with: nothing is queued or in progress, and every destination is
among the completed ones. -/
structure Settled (dests : List (DedupeDest F)) (origLen : ℕ) (fin : DedupeCtxt F) : Prop where
  queued : fin.queued = []
  idle : fin.inProgress = []
  origLen_eq : fin.origLen = origLen
  accounted : Accounted dests origLen fin.completed

structure RoundsOk (dests : List (DedupeDest F)) (loff : ℕ) (ctxt : DedupeCtxt F)
    (rounds : List (DedupeRound F)) : Prop where
  fits : ∀ round ∈ rounds, round.Fits
  inStep : QueueInStep loff ctxt →
    (∀ round ∈ rounds, ∀ infos, round.answer = .ok infos → NoneAhead infos) →
    ∀ round ∈ rounds, round.InStep dests loff

theorem settled_of_start {ctxt : DedupeCtxt F} (h : AtRoundStart dests ctxt)
    (hempty : ctxt.queued = []) : Settled dests ctxt.origLen ctxt where
  queued := hempty
  idle := h.idle
  origLen_eq := rfl
  accounted := by
    have := h.accounted.mono (Nat.sub_le _ _)
    rwa [hempty, List.nil_append] at this

/-- Whatever is in flight when a round is given up counts as completed. -/
theorem settled_of_failed {ctxt : DedupeCtxt F} (h : InFlight dests ctxt) (err : ℕ) :
    Settled dests ctxt.origLen (ctxt.failInFlight err) where
  queued := rfl
  idle := rfl
  origLen_eq := rfl
  accounted := by
    refine (h.accounted.mono (Nat.sub_le _ _)).of_progress ?_
    simp only [failInFlight, h.taken, List.append_nil, List.map_append, List.map_map]
    rfl

theorem settled_of_stuck {ctxt : DedupeCtxt F} (h : AtRoundStart dests ctxt) :
    Settled dests ctxt.origLen { ctxt with
      completed := ctxt.queued ++ ctxt.completed, queued := [] } where
  queued := rfl
  idle := h.idle
  origLen_eq := rfl
  accounted := h.accounted.mono (Nat.sub_le _ _)

theorem inStep_of_queue {loff : ℕ} {ctxt populated : DedupeCtxt F}
    {answer : Except ℕ (List RangeInfo)} (hne : ctxt.queued ≠ [])
    (hflight : InFlight dests populated) (hoff : populated.ioctlFileOff = ctxt.ioctlFileOff)
    (hqueue : QueueInStep loff ctxt)
    (hsent : ∀ req ∈ populated.inProgress, populated.ioctlFileOff = loff + req.reqTotal) :
    DedupeRound.InStep dests loff ⟨populated, answer⟩ := by
  obtain ⟨first, hfirst⟩ := List.exists_mem_of_ne_nil _ hne
  have hmoved := hqueue first hfirst
  refine ⟨first.reqTotal, hoff.trans hmoved, fun req hreq => ?_⟩
  have hmem := List.mem_append_right populated.completed hreq
  refine ⟨req.dest, hflight.accounted.perm.subset (List.mem_map_of_mem hmem), rfl, ?_⟩
  have hle := hflight.accounted.moved req hmem
  have := hsent req hreq
  simp only [DedupeReq.dest]
  omega

/-- The loop ends with every request settled; the remaining length lasts for the rounds. -/
theorem roundLoop_spec (loff : ℕ) {ctxt : DedupeCtxt F} (h : AtRoundStart dests ctxt)
    (call : ℕ) (rounds : List (DedupeRound F)) :
    ∃ err fin more, (∀ fuel, ctxt.len + 2 ≤ fuel →
        k.roundLoop fuel call rounds ctxt = some (.returns err fin (rounds ++ more))) ∧
      Settled dests ctxt.origLen fin ∧ RoundsOk dests loff ctxt more := by
  induction hn : ctxt.len using Nat.strong_induction_on generalizing ctxt call rounds with
  | _ len ih =>
  subst hn
  by_cases hempty : ctxt.queued = []
  · refine ⟨0, ctxt, [], fun fuel hfuel => ?_, settled_of_start h hempty, by simp, by simp⟩
    obtain ⟨fuel, rfl⟩ : ∃ n, fuel = n + 1 := ⟨fuel - 1, by omega⟩
    rw [roundLoop_of_empty _ _ _ hempty, List.append_nil]
  obtain ⟨populated, same, hpopulate, hflight, hlen, horig, hoff, hsrc, hinfo, hreqs⟩ :=
    populate_spec h k.blocksize
  obtain ⟨call', submitted, answer, hsubmit⟩ :
      ∃ call' submitted answer, k.submit call populated same = (call', submitted, answer) :=
    ⟨_, _, _, rfl⟩
  obtain ⟨⟨aligned, rfl⟩, hanswer⟩ := submit_spec (by rw [hlen]; exact hsrc) hsubmit
  have hfits : DedupeRound.Fits ⟨populated, answer⟩ := fun infos hok => (hanswer infos hok).2
  have hflight' : InFlight dests { populated with aligned := aligned } :=
    ⟨hflight.taken, hflight.accounted, hflight.len_le, hflight.room⟩
  -- the requests in flight are the queue's
  have hsent : QueueInStep loff ctxt → ∀ req ∈ populated.inProgress,
      populated.ioctlFileOff = loff + req.reqTotal := by
    intro hqueue req hreq
    rw [hreqs] at hreq
    obtain ⟨i, hi, rfl⟩ := List.mem_mapIdx.mp hreq
    rw [hoff]
    exact hqueue ctxt.queued[i] (List.getElem_mem hi)
  have hround : QueueInStep loff ctxt → DedupeRound.InStep dests loff ⟨populated, answer⟩ :=
    fun hqueue => inStep_of_queue hempty hflight hoff hqueue (hsent hqueue)
  cases answer with
  | error err =>
    refine ⟨err, { populated with aligned := aligned }.failInFlight err,
      [⟨populated, .error err⟩], fun fuel hfuel => ?_, ?_, ?_, ?_⟩
    · obtain ⟨fuel, rfl⟩ : ∃ n, fuel = n + 1 := ⟨fuel - 1, by omega⟩
      rw [roundLoop, if_neg (by simpa using hempty), hpopulate]
      simp only [hsubmit]
    · rw [← horig]
      exact settled_of_failed hflight' err
    · simpa using hfits
    · intro hqueue _ round hmem
      obtain rfl := List.mem_singleton.mp hmem
      exact hround hqueue
  | ok infos =>
    have hloop : ∀ fuel, k.roundLoop (fuel + 1) call rounds ctxt =
        let processed := { populated with aligned := aligned }.processDedupes infos k.blocksize
        if (infos.map RangeInfo.bytesDeduped).sum = 0 ∧ processed.queued.isEmpty = false then
          some (.returns 0 { processed with
            completed := processed.queued ++ processed.completed, queued := [] }
            (rounds ++ [⟨populated, .ok infos⟩]))
        else k.roundLoop fuel call' (rounds ++ [⟨populated, .ok infos⟩]) processed := by
      intro fuel
      rw [roundLoop, if_neg (by simpa using hempty), hpopulate]
      simp only [hsubmit]
    obtain ⟨hlength, hbounded⟩ := hanswer infos rfl
    obtain ⟨hinfos, hcover⟩ := infoOf_mem hreqs (hlength.trans hinfo)
    obtain ⟨hstart, horig', hlen', hoff', hqueued⟩ := processDedupes_spec hflight' k.blocksize
      fun req hreq => hbounded _ (hinfos req hreq)
    have hmax : 0 ≠ (infos.map RangeInfo.bytesDeduped).sum →
        0 < { populated with aligned := aligned }.maxDeduped infos := fun hsum =>
      maxDeduped_pos hcover (Ne.symm hsum)
    have hmaxLe : { populated with aligned := aligned }.maxDeduped infos ≤ populated.len :=
      maxDeduped_le fun req hreq => hbounded _ (hinfos req hreq)
    have hnext : QueueInStep loff ctxt → NoneAhead infos →
        QueueInStep loff ({ populated with aligned := aligned }.processDedupes infos k.blocksize) :=
      fun hqueue hahead =>
        queueInStep_processDedupes (hsent hqueue) hinfos hahead hoff' hqueued
    generalize { populated with aligned := aligned }.processDedupes infos k.blocksize = processed
      at hloop hstart horig' hlen' hqueued hnext
    rw [← horig, ← horig']
    by_cases hstuck : (infos.map RangeInfo.bytesDeduped).sum = 0 ∧ processed.queued.isEmpty = false
    · refine ⟨0, _, [⟨populated, .ok infos⟩], fun fuel hfuel => ?_, settled_of_stuck hstart, ?_, ?_⟩
      · obtain ⟨fuel, rfl⟩ : ∃ n, fuel = n + 1 := ⟨fuel - 1, by omega⟩
        rw [hloop]
        exact if_pos hstuck
      · simpa using hfits
      · intro hqueue _ round hmem
        obtain rfl := List.mem_singleton.mp hmem
        exact hround hqueue
    · have hrest : ∃ err fin more, (∀ fuel, ctxt.len + 1 ≤ fuel →
          k.roundLoop fuel call' (rounds ++ [⟨populated, .ok infos⟩]) processed =
            some (.returns err fin (rounds ++ [⟨populated, .ok infos⟩] ++ more))) ∧
          Settled dests processed.origLen fin ∧ RoundsOk dests loff processed more := by
        by_cases hdone : processed.queued = []
        · refine ⟨0, processed, [], fun fuel hfuel => ?_, settled_of_start hstart hdone, by simp,
            by simp⟩
          obtain ⟨fuel, rfl⟩ : ∃ n, fuel = n + 1 := ⟨fuel - 1, by omega⟩
          rw [roundLoop_of_empty _ _ _ hdone, List.append_nil]
        · have hpos := hmax fun hzero => hstuck ⟨hzero.symm, by simpa using hdone⟩
          have hless : processed.len < ctxt.len := by
            rw [hlen']
            dsimp only
            omega
          obtain ⟨err, fin, more, hrun, hsettled, hok⟩ := ih processed.len hless hstart call'
            (rounds ++ [⟨populated, .ok infos⟩]) rfl
          exact ⟨err, fin, more, fun fuel hfuel => hrun fuel (by omega), hsettled, hok⟩
      obtain ⟨err, fin, more, hrun, hsettled, hok⟩ := hrest
      refine ⟨err, fin, ⟨populated, .ok infos⟩ :: more, fun fuel hfuel => ?_, hsettled, ?_, ?_⟩
      · obtain ⟨fuel, rfl⟩ : ∃ n, fuel = n + 1 := ⟨fuel - 1, by omega⟩
        rw [hloop]
        dsimp only
        rw [if_neg hstuck, hrun fuel (by omega), List.append_assoc, List.singleton_append]
      · exact List.forall_mem_cons.mpr ⟨hfits, hok.fits⟩
      · intro hqueue hahead
        obtain ⟨hfirst, hmore⟩ := List.forall_mem_cons.mp hahead
        exact List.forall_mem_cons.mpr ⟨hround hqueue,
          hok.inStep (hnext hqueue (hfirst infos rfl)) hmore⟩

end DedupeKernel

namespace DedupeCtxt

theorem popResults_eq {ctxt : DedupeCtxt F} (hne : ctxt.completed ≠ []) {fuel : ℕ}
    (hfuel : ctxt.completed.length ≤ fuel) : ctxt.popResults fuel =
      some (ctxt.completed.map DedupeReq.result, { ctxt with completed := [] }) := by
  induction fuel generalizing ctxt with
  | zero => exact absurd (List.length_eq_zero_iff.mp (Nat.le_zero.mp hfuel)) hne
  | succ fuel ih =>
    rw [popResults, popOneDedupeResult]
    cases hcompleted : ctxt.completed with
    | nil => exact absurd hcompleted hne
    | cons req rest =>
      rw [hcompleted, List.length_cons] at hfuel
      cases rest with
      | nil => rfl
      | cons req' rest =>
        have := @ih { ctxt with completed := req' :: rest } (by simp) (by simpa using hfuel)
        simp only [List.isEmpty_cons, this, Option.map_some, List.map_cons]

theorem addExtents_eq {ctxt ctxt' : DedupeCtxt F} {dests : List (DedupeDest F)}
    (h : ctxt.addExtents dests = some ctxt') :
    ctxt' = { ctxt with
        queued := ctxt.queued ++ dests.map .new, numQueued := ctxt.numQueued + dests.length } ∧
      (ctxt.numQueued ≤ ctxt.maxQueable → ctxt.numQueued + dests.length ≤ ctxt.maxQueable) := by
  induction dests generalizing ctxt with
  | nil =>
    obtain rfl := Option.some.inj h
    simp
  | cons dest dests ih =>
    rw [addExtents, addExtentToDedupe] at h
    split_ifs at h with hfull
    · simp at h
    · obtain ⟨heq, hroom⟩ := ih h
      refine ⟨?_, fun _ => ?_⟩
      · rw [heq]
        simp [Nat.add_assoc, Nat.add_comm 1]
      · dsimp only at hroom
        rw [List.length_cons]
        omega

theorem atRoundStart_clamp {loff elen maxExtents : ℕ} {ioctlFile : F} {ctxt : DedupeCtxt F}
    {dests : List (DedupeDest F)}
    (hqueued : (newDedupeCtxt maxExtents loff elen ioctlFile).addExtents dests = some ctxt)
    (srcSize : Option ℕ) :
    AtRoundStart dests (ctxt.clampLenToIoctlFile srcSize) ∧
    (ctxt.clampLenToIoctlFile srcSize).len ≤ elen ∧
    (ctxt.clampLenToIoctlFile srcSize).origLen ≤ elen ∧
    DedupeKernel.QueueInStep loff (ctxt.clampLenToIoctlFile srcSize) := by
  obtain ⟨rfl, hroom⟩ := addExtents_eq hqueued
  have hroom := hroom (Nat.zero_le _)
  simp only [newDedupeCtxt, Nat.zero_add, List.nil_append] at hroom ⊢
  have hnew : (dests.map DedupeReq.new).map DedupeReq.dest = dests := by
    rw [List.map_map]
    exact List.map_id'' (fun dest => rfl) dests
  have hacc : ∀ bound, Accounted dests bound (dests.map .new) := by
    intro bound
    refine ⟨.of_eq hnew, fun req hreq => ?_, fun req hreq => ?_⟩ <;>
    · obtain ⟨dest, -, rfl⟩ := List.mem_map.mp hreq
      exact Nat.zero_le _
  have hstep : ∀ req ∈ dests.map DedupeReq.new, loff = loff + req.reqTotal := by
    intro req hreq
    obtain ⟨dest, -, rfl⟩ := List.mem_map.mp hreq
    rfl
  unfold clampLenToIoctlFile
  split
  · exact ⟨⟨rfl, by simpa using hacc _, le_rfl, hroom⟩, le_rfl, le_rfl, hstep⟩
  · dsimp only
    split_ifs
    · exact ⟨⟨rfl, by simpa using hacc _, le_rfl, hroom⟩, le_rfl, le_rfl, hstep⟩
    · exact ⟨⟨rfl, by simpa using hacc _, le_rfl, hroom⟩, le_rfl, le_rfl, by
        simp [DedupeKernel.QueueInStep]⟩
    · exact ⟨⟨rfl, by simpa using hacc _, le_rfl, hroom⟩, by dsimp only; omega,
        by dsimp only; omega, hstep⟩

end DedupeCtxt

def ResultsOf (dests : List (DedupeDest F)) (origLen : ℕ) (results : List (DedupeResult F)) :
    Prop :=
  ∃ order, order.Perm dests ∧ List.Forall₂ (fun dest result =>
    result.file = dest.file ∧ result.bytesDone ≤ origLen ∧
    result.bytesFreed ≤ result.bytesDone ∧ result.bytesFreed ≤ dest.unshared) order results

namespace DedupeKernel

theorem Settled.popResults {dests : List (DedupeDest F)} {origLen : ℕ} {fin : DedupeCtxt F}
    (h : Settled dests origLen fin) (hne : dests ≠ []) :
    ∃ results popped, (∀ fuel, dests.length ≤ fuel → fin.popResults fuel = some (results, popped)) ∧
      popped.completed = [] ∧ ResultsOf dests origLen results := by
  have hperm := h.accounted.perm
  have hlength := hperm.length_eq
  rw [List.length_map] at hlength
  have hcompleted : fin.completed ≠ [] := fun hnil => by
    rw [hnil, List.length_nil] at hlength
    exact hne (List.length_eq_zero_iff.mp hlength.symm)
  refine ⟨_, _, fun fuel hfuel => DedupeCtxt.popResults_eq hcompleted (by omega), rfl, _, hperm, ?_⟩
  rw [List.forall₂_map_left_iff, List.forall₂_map_right_iff]
  refine List.forall₂_same.mpr fun req hreq => ⟨rfl, h.accounted.total req hreq, ?_⟩
  simp only [DedupeReq.result, DedupeReq.dest]
  split_ifs <;> omega

/-- A request that is run settles all it was given. -/
theorem dedupeExtents_spec (k : DedupeKernel F) {maxExtents loff elen : ℕ} {ioctlFile : F}
    {dests : List (DedupeDest F)} {ctxt : DedupeCtxt F}
    (hqueued : (newDedupeCtxt maxExtents loff elen ioctlFile).addExtents dests = some ctxt) :
    ∃ err fin rounds,
      (∀ fuel, elen + 2 ≤ fuel → k.dedupeExtents fuel ctxt = some (.returns err fin rounds)) ∧
      Settled dests (ctxt.clampLenToIoctlFile k.srcSize).origLen fin ∧
      RoundsOk dests loff (ctxt.clampLenToIoctlFile k.srcSize) rounds := by
  obtain ⟨hstart, hlen, -, -⟩ := DedupeCtxt.atRoundStart_clamp hqueued k.srcSize
  obtain ⟨err, fin, rounds, hrun, hsettled, hok⟩ := k.roundLoop_spec loff hstart 0 []
  exact ⟨err, fin, rounds, fun fuel hfuel => hrun fuel (by omega), hsettled, hok⟩

end DedupeKernel

/-- `dedupe_extents()` comes to an end whatever the kernel answers, and hands every queued
destination back once; source and destinations stay in step as long as no refused destination
gets ahead of the others. -/
theorem dedupe_extents_accounts (k : DedupeKernel F) (maxExtents loff elen : ℕ) (ioctlFile : F)
    (dests : List (DedupeDest F)) (ctxt : DedupeCtxt F)
    (hqueued : (newDedupeCtxt maxExtents loff elen ioctlFile).addExtents dests = some ctxt) :
    ∃ err fin rounds,
      (∀ fuel, elen + 2 ≤ fuel → k.dedupeExtents fuel ctxt = some (.returns err fin rounds)) ∧
      fin.queued = [] ∧ fin.inProgress = [] ∧
      (∀ round ∈ rounds, round.Fits) ∧
      (dests ≠ [] → ∃ results popped, (∀ fuel, dests.length ≤ fuel →
          fin.popResults fuel = some (results, popped)) ∧ popped.completed = [] ∧
        ResultsOf dests (ctxt.clampLenToIoctlFile k.srcSize).origLen results) ∧
      (ctxt.clampLenToIoctlFile k.srcSize).origLen ≤ elen ∧
      ((∀ round ∈ rounds, ∀ infos, round.answer = .ok infos → NoneAhead infos) →
        ∀ round ∈ rounds, round.InStep dests loff) := by
  obtain ⟨-, -, horig, hstep⟩ := DedupeCtxt.atRoundStart_clamp hqueued k.srcSize
  obtain ⟨err, fin, rounds, hrun, hsettled, hok⟩ := k.dedupeExtents_spec hqueued
  exact ⟨err, fin, rounds, hrun, hsettled.queued, hsettled.idle, hok.fits, hsettled.popResults,
    horig, hok.inStep hstep⟩

section Example

def refusesAhead : DedupeKernel ℕ where
  ioctl call same :=
    if call = 0 then .ok (same.info.mapIdx fun i _ =>
      if i = 0 then ⟨min 8192 same.srcLength, 1⟩ else ⟨min 4096 same.srcLength, 0⟩)
    else .error 5
  answersEach call same infos h := by
    split_ifs at h
    obtain rfl := Except.ok.inj h
    simp
  bounded call same infos h info hinfo := by
    split_ifs at h
    obtain rfl := Except.ok.inj h
    obtain ⟨i, hi, rfl⟩ := List.mem_mapIdx.mp hinfo
    split_ifs <;> simp
  srcSize := none
  blocksize := 4096

def twoDests : List (DedupeDest ℕ) := [⟨1, 0, 16384⟩, ⟨2, 0, 4096⟩]

def twoQueued : DedupeCtxt ℕ :=
  { newDedupeCtxt 3 0 16384 0 with queued := twoDests.map .new, numQueued := 2 }

theorem dedupe_extents_accounts_two : ∃ err fin rounds,
    (∀ fuel, 16386 ≤ fuel →
      refusesAhead.dedupeExtents fuel twoQueued = some (.returns err fin rounds)) ∧
    ∃ results popped, (∀ fuel, 2 ≤ fuel → fin.popResults fuel = some (results, popped)) ∧
      ResultsOf twoDests 16384 results := by
  obtain ⟨err, fin, rounds, hrun, -, -, -, hresults, -⟩ :=
    dedupe_extents_accounts refusesAhead 3 0 16384 0 twoDests twoQueued rfl
  obtain ⟨results, popped, hpop, -, hall⟩ := hresults (by decide)
  exact ⟨err, fin, rounds, hrun, results, popped, hpop, hall⟩

/-- The destinations that were not refused always agree, and yet the second round asks for the
second destination's bytes 4096 behind the source's. -/
theorem source_outruns_dest : ∃ fin rounds,
    (newDedupeCtxt 3 0 16384 0).addExtents twoDests = some twoQueued ∧
    refusesAhead.dedupeExtents 16386 twoQueued = some (.returns 5 fin rounds) ∧
    (∀ round ∈ rounds, ∀ infos, round.answer = .ok infos → SameCount infos) ∧
    ¬ ∀ round ∈ rounds, round.InStep twoDests 0 := by
  refine ⟨_, [⟨{ twoQueued with
      queued := [], numQueued := 0,
      inProgress := [⟨1, 0, 16384, 0, 0, 0⟩, ⟨2, 0, 4096, 0, 0, 1⟩] },
      .ok [⟨8192, 1⟩, ⟨4096, 0⟩]⟩,
    ⟨{ twoQueued with
      len := 8192, ioctlFileOff := 8192, queued := [], numQueued := 0,
      inProgress := [⟨2, 4096, 4096, 4096, 0, 0⟩],
      completed := [⟨1, 8192, 16384, 8192, 1, 0⟩] }, .error 5⟩], rfl, rfl, ?_, ?_⟩
  · intro round hround infos hinfos
    simp only [List.mem_cons, List.not_mem_nil, or_false] at hround
    rcases hround with rfl | rfl
    · obtain rfl := Except.ok.inj hinfos
      exact ⟨4096, by decide⟩
    · cases hinfos
  · intro hall
    obtain ⟨moved, hsrc, hreqs⟩ := hall _ (List.mem_cons_of_mem _ List.mem_cons_self)
    obtain ⟨dest, hdest, -, hloff⟩ := hreqs _ List.mem_cons_self
    have hzero : dest.loff = 0 := by
      simp only [twoDests, List.mem_cons, List.not_mem_nil, or_false] at hdest
      rcases hdest with rfl | rfl <;> rfl
    dsimp only at hsrc hloff
    omega

end Example

end Oans
