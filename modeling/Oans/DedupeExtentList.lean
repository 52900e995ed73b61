import Oans.DedupeRounds

/-!
# The members of one group

`dedupe_extent_list()` drops the members that are known to share the first one's storage, takes the
first member it can use for the target and queues the others on dedupe contexts, one after another.
A context that is full, or has got the last member, is run, all files are closed, and the target is
opened again for the next one.
-/

namespace Oans

def ENOENT : ℕ := 2

structure GroupExtent (F : Type) where
  eFile : F
  eLoff : ℕ
  ePoff : ℕ
  ePlen : ℕ
  deriving DecidableEq

/-- What the run meets when it comes to a member: the errno of opening its file or 0, the size
`fstat()` tells, the verdict of `fiemap_maps_share()`, what `fiemap_unshared_bytes()` counts, and
how opening and mapping it end once the group is done. -/
structure MemberOutcome where
  openErr : ℕ
  stSize : Option ℕ
  alreadyShared : Bool
  unshared : ℕ
  postErr : ℕ
  postCounts : Bool
  deriving DecidableEq

structure Member (F : Type) extends GroupExtent F where
  found : MemberOutcome
  deriving DecidableEq

structure GroupEnv (F : Type) where
  len : ℕ
  wholeFileDedup : Bool
  blocksize : ℕ
  /-- mapping the target gives a map -/
  tgtMapped : Bool
  /-- the errno of each reopening of the target, or 0 -/
  reopenErr : ℕ → ℕ
  /-- the answers each context's calls get -/
  kernel : ℕ → DedupeKernel F
  reportNetShared : Bool

section Clean

variable {F : Type} {M : Type*}

def diskExtentGrew (len : ℕ) (extent : GroupExtent F) : Bool := decide (extent.ePlen < len)

def cleaned (len : ℕ) (target extent : GroupExtent F) : Bool :=
  decide (target.ePoff ≠ 0) && !diskExtentGrew len target &&
    decide (extent.ePoff = target.ePoff) && !diskExtentGrew len extent

/-- `clean_deduped()` on the members of a group; none where fewer than two are left and the group
goes with them. -/
def cleanDeduped (extentOf : M → GroupExtent F) (len : ℕ) : List M → Option (List M)
  | [] => none
  | target :: rest =>
    let kept := target :: rest.filter fun m => !cleaned len (extentOf target) (extentOf m)
    if kept.length < 2 then none else some kept

theorem two_le_cleanDeduped {extentOf : M → GroupExtent F} {len : ℕ} {members kept : List M}
    (h : cleanDeduped extentOf len members = some kept) : 2 ≤ kept.length := by
  unfold cleanDeduped at h
  split at h
  · cases h
  · dsimp only at h
    split_ifs at h with hfew
    obtain rfl := Option.some.inj h
    exact not_lt.mp hfew

end Clean

inductive MemberFate
  | queued
  | alreadyShared
  | changed
  | openError
  | reopenError
  | removed
  deriving DecidableEq

structure ContextRun (F : Type) where
  ctxt : DedupeCtxt F
  results : List (DedupeResult F)

/-- The state of the loop. `fdRefs` counts the references it holds itself; those of other workers
only add to them. -/
structure GroupLoop (F : Type) where
  ctxt : Option (DedupeCtxt F)
  tgtExtent : Option (Member F)
  openFiles : List F
  fdRefs : F → ℕ
  reopens : ℕ
  runs : List (ContextRun F)
  ledger : List (Member F × MemberFate)

variable {F : Type} [DecidableEq F]

/-- `filerec_close()`; none where its assertion fires. -/
def filerecClose (fdRefs : F → ℕ) (file : F) : Option (F → ℕ) :=
  if fdRefs file = 0 then none else some (Function.update fdRefs file (fdRefs file - 1))

def closeAll : List F → (F → ℕ) → Option (F → ℕ)
  | [], fdRefs => some fdRefs
  | file :: files, fdRefs => (filerecClose fdRefs file).bind (closeAll files)

/-- `add_shared_extents_post()`, as far as it opens and closes files. -/
def addSharedExtentsPost : List (Member F) → (F → ℕ) → Option (F → ℕ)
  | [], fdRefs => some fdRefs
  | m :: members, fdRefs =>
    if m.found.postErr ≠ 0 then some fdRefs
    else
      (filerecClose (Function.update fdRefs m.eFile (fdRefs m.eFile + 1)) m.eFile).bind
        fun fdRefs => if m.found.postCounts then addSharedExtentsPost members fdRefs else some fdRefs

namespace GroupLoop

def note (st : GroupLoop F) (m : Member F) (fate : MemberFate) : GroupLoop F :=
  { st with ledger := st.ledger ++ [(m, fate)] }

def filerecOpenOnce (st : GroupLoop F) (file : F) (err : ℕ) : ℕ × GroupLoop F :=
  if file ∈ st.openFiles then (0, st)
  else if err ≠ 0 then (err, st)
  else (0, { st with
    openFiles := file :: st.openFiles
    fdRefs := Function.update st.fdRefs file (st.fdRefs file + 1) })

def filerecCloseOpenList (st : GroupLoop F) : Option (GroupLoop F) :=
  (closeAll st.openFiles st.fdRefs).map fun fdRefs =>
    { st with openFiles := [], fdRefs := fdRefs }

/-- The target is opened again; where that fails the loop is left, and the members that are left
count as errors. -/
def reopenTarget (env : GroupEnv F) (rest : List (Member F)) (tgt : Member F) (st : GroupLoop F) :
    Bool × GroupLoop F :=
  let (ret, opened) := { st with reopens := st.reopens + 1 }.filerecOpenOnce tgt.eFile
    (env.reopenErr st.reopens)
  if ret ≠ 0 then
    (true, { opened with ledger := opened.ledger ++ rest.map fun m => (m, .reopenError) })
  else (false, opened)

/-- From `close_files:` to the end of the turn, with the members that are left; the answer says
whether the loop is left. -/
def closeFiles (env : GroupEnv F) (rest : List (Member F)) (st : GroupLoop F) :
    Option (Bool × GroupLoop F) :=
  match st.filerecCloseOpenList with
  | none => none
  | some closed =>
    let freed := { closed with ctxt := none }
    if rest.isEmpty then some (false, freed)
    else
      match freed.tgtExtent with
      | none => none
      | some tgt => some (freed.reopenTarget env rest tgt)

def runDedupe (env : GroupEnv F) (rest : List (Member F)) (ctxt : DedupeCtxt F)
    (st : GroupLoop F) : Option (Bool × GroupLoop F) :=
  if ctxt.numQueued = 0 then closeFiles env rest st
  else
    match (env.kernel st.runs.length).dedupeExtents (ctxt.len + 2) ctxt with
    | some (.returns _ fin _) =>
      match fin.popResults ctxt.numQueued with
      | some (results, _) =>
        closeFiles env rest { st with runs := st.runs ++ [⟨ctxt, results⟩] }
      | none => none
    | _ => none

/-- `if (ctxt && last) goto run_dedupe; continue;` -/
def skipMember (env : GroupEnv F) (rest : List (Member F)) (st : GroupLoop F) :
    Option (Bool × GroupLoop F) :=
  match st.ctxt with
  | some ctxt => if rest.isEmpty then runDedupe env rest ctxt st else some (false, st)
  | none => some (false, st)

/-- The rest of the turn of a member that is usable and not the target. -/
def queueMember (env : GroupEnv F) (m : Member F) (rest : List (Member F)) (ctxt : DedupeCtxt F)
    (st : GroupLoop F) : Option (Bool × GroupLoop F) :=
  if env.tgtMapped && m.found.alreadyShared then
    skipMember env rest ({ st with ctxt := some ctxt }.note m .alreadyShared)
  else
    let unshared := if env.tgtMapped then m.found.unshared
      else dedupeShareableLen env.blocksize env.len
    match ctxt.addExtentToDedupe ⟨m.eFile, m.eLoff, unshared⟩ with
    | none => none
    | some (room, ctxt) =>
      let st := { st with ctxt := some ctxt }.note m .queued
      if room ≠ 0 ∧ rest.isEmpty = false then some (false, st) else runDedupe env rest ctxt st

end GroupLoop

def Member.sizeChanged (env : GroupEnv F) (m : Member F) : Bool :=
  match m.found.stSize with
  | none => false
  | some size =>
    if env.wholeFileDedup then decide (size ≠ env.len)
    else decide (size + env.blocksize - 1 < m.eLoff + env.len)

namespace GroupLoop

def memberTurn (env : GroupEnv F) (numDupes : ℕ) (m : Member F) (rest : List (Member F))
    (st : GroupLoop F) : Option (Bool × GroupLoop F) :=
  let (ret, opened) := st.filerecOpenOnce m.eFile m.found.openErr
  if ret ≠ 0 then
    skipMember env rest (opened.note m (if ret = ENOENT then .removed else .openError))
  else if m.sizeChanged env then skipMember env rest (opened.note m .changed)
  else
    match opened.ctxt, opened.tgtExtent with
    | some ctxt, _ => queueMember env m rest ctxt opened
    | none, some tgt =>
      queueMember env m rest (newDedupeCtxt numDupes tgt.eLoff env.len tgt.eFile) opened
    | none, none =>
      if rest.isEmpty then closeFiles env rest opened
      else
        some (false, { opened with
          tgtExtent := some m
          ctxt := some (newDedupeCtxt numDupes m.eLoff env.len m.eFile) })

def memberLoop (env : GroupEnv F) (numDupes : ℕ) :
    List (Member F) → GroupLoop F → Option (GroupLoop F)
  | [], st => some st
  | m :: rest, st =>
    match memberTurn env numDupes m rest st with
    | none => none
    | some (true, st) => some st
    | some (false, st) => memberLoop env numDupes rest st

end GroupLoop

inductive GroupEnd (F : Type)
  /-- `DEDUPE_EXTENTS_CLEANED` -/
  | cleaned
  | done (st : GroupLoop F)

/-- `dedupe_extent_list()`; none where an assertion fires. -/
def dedupeMembers (env : GroupEnv F) (members : List (Member F)) : Option (GroupEnd F) :=
  if members.length < 2 then none
  else
    match cleanDeduped Member.toGroupExtent env.len members with
    | none => some .cleaned
    | some kept =>
      match GroupLoop.memberLoop env kept.length kept ⟨none, none, [], fun _ => 0, 0, [], []⟩ with
      | none => none
      | some st =>
        match st.filerecCloseOpenList with
        | none => none
        | some st =>
          if st.ctxt.isSome ∨ st.openFiles ≠ [] then none
          else if env.reportNetShared then
            (addSharedExtentsPost kept st.fdRefs).map fun fdRefs =>
              .done { st with fdRefs := fdRefs }
          else some (.done st)

/-! ## What the group is run for -/

def Member.place (m : Member F) : F × ℕ := (m.eFile, m.eLoff)

omit [DecidableEq F] in
def ContextRun.places (run : ContextRun F) : List (F × ℕ) :=
  run.ctxt.queued.map fun req => (req.reqFile, req.reqLoff)

def queuedPlaces (ledger : List (Member F × MemberFate)) : List (F × ℕ) :=
  (ledger.filter fun e => e.2 = .queued).map fun e => e.1.place

/-- The context has destinations, its source is the target at its offset, and every destination has
its result. -/
structure ContextRun.Ok (tgt : Member F) (run : ContextRun F) : Prop where
  queued : run.ctxt.queued ≠ []
  source : (run.ctxt.ioctlFile, run.ctxt.ioctlFileOff) = tgt.place
  results : (run.results.map DedupeResult.file).Perm (run.ctxt.queued.map DedupeReq.reqFile)

/-- The member can be opened, or its file is open for an earlier one, and has the size it should
have. -/
def Member.Usable (env : GroupEnv F) (before : List (Member F)) (m : Member F) : Prop :=
  (m.found.openErr = 0 ∨ ∃ d ∈ before, d.eFile = m.eFile ∧ d.found.openErr = 0) ∧
    m.sizeChanged env = false

def NoneUsable (env : GroupEnv F) (members : List (Member F)) : Prop :=
  ∀ before m after, members = before ++ m :: after → ¬ m.Usable env before

/-- Every member but the first usable one is in the ledger once, and those that were queued are the
destinations of the contexts that were run. -/
def GroupLoop.Accounts (env : GroupEnv F) (members : List (Member F)) (st : GroupLoop F) : Prop :=
  (NoneUsable env members ∧ st.ledger.map Prod.fst = members ∧
    st.runs = [] ∧ queuedPlaces st.ledger = []) ∨
  ∃ before tgt after, members = before ++ tgt :: after ∧
    NoneUsable env before ∧ tgt.Usable env before ∧
    st.ledger.map Prod.fst = before ++ after ∧
    st.runs.flatMap ContextRun.places = queuedPlaces st.ledger ∧ ∀ run ∈ st.runs, run.Ok tgt

namespace GroupLoop

/-! ## The references -/

structure Refs (st : GroupLoop F) : Prop where
  nodup : st.openFiles.Nodup
  held : ∀ f, st.fdRefs f = if f ∈ st.openFiles then 1 else 0

theorem closeAll_held (files : List F) (fdRefs : F → ℕ) (hnodup : files.Nodup)
    (hheld : ∀ f, fdRefs f = if f ∈ files then 1 else 0) :
    closeAll files fdRefs = some fun _ => 0 := by
  induction files generalizing fdRefs with
  | nil =>
    have : fdRefs = fun _ => 0 := funext fun f => by simpa using hheld f
    rw [closeAll, this]
  | cons file files ih =>
    obtain ⟨hnot, hnodup⟩ := List.nodup_cons.mp hnodup
    have hfile : fdRefs file = 1 := by simpa using hheld file
    rw [closeAll, filerecClose, if_neg (by omega), Option.bind_some]
    refine ih _ hnodup fun f => ?_
    by_cases heq : f = file
    · rw [heq, Function.update_self, if_neg hnot, hfile]
    · rw [Function.update_of_ne heq, hheld f]
      simp [heq]

theorem filerecCloseOpenList_eq {st : GroupLoop F} (h : st.Refs) :
    st.filerecCloseOpenList = some { st with openFiles := [], fdRefs := fun _ => 0 } := by
  rw [filerecCloseOpenList, closeAll_held _ _ h.nodup h.held, Option.map_some]

theorem filerecOpenOnce_spec (st : GroupLoop F) (file : F) (err : ℕ) (h : st.Refs) :
    (st.filerecOpenOnce file err).2.Refs ∧ ∃ openFiles fdRefs,
      (st.filerecOpenOnce file err).2 = { st with openFiles := openFiles, fdRefs := fdRefs } ∧
      ((st.filerecOpenOnce file err).1 = 0 ↔ file ∈ st.openFiles ∨ err = 0) ∧
      ∀ f, f ∈ openFiles ↔ f ∈ st.openFiles ∨ f = file ∧ err = 0 := by
  unfold filerecOpenOnce
  split_ifs with hopen herr
  · refine ⟨h, st.openFiles, st.fdRefs, rfl, by simp [hopen], fun f => ⟨Or.inl, ?_⟩⟩
    rintro (hf | ⟨rfl, -⟩)
    · exact hf
    · exact hopen
  · exact ⟨h, st.openFiles, st.fdRefs, rfl, by simp [hopen, herr], fun f => by simp [herr]⟩
  · push Not at herr
    refine ⟨⟨List.nodup_cons.mpr ⟨hopen, h.nodup⟩, fun f => ?_⟩, file :: st.openFiles, _, rfl,
      by simp [herr], fun f => by simp [herr, or_comm]⟩
    by_cases heq : f = file
    · simp [heq, h.held, hopen]
    · simp [heq, h.held]

theorem addSharedExtentsPost_held (members : List (Member F)) (fdRefs : F → ℕ) :
    addSharedExtentsPost members fdRefs = some fdRefs := by
  induction members generalizing fdRefs with
  | nil => rfl
  | cons m members ih =>
    rw [addSharedExtentsPost]
    by_cases herr : m.found.postErr ≠ 0
    · rw [if_pos herr]
    · rw [if_neg herr, filerecClose, if_neg (by simp), Option.bind_some]
      have : Function.update (Function.update fdRefs m.eFile (fdRefs m.eFile + 1)) m.eFile
          (Function.update fdRefs m.eFile (fdRefs m.eFile + 1) m.eFile - 1) = fdRefs := by simp
      rw [this, ih]
      split_ifs <;> rfl

/-! ## The turns behind the target -/

/-- The context of the next run: there is none, or the destinations pending are queued on it and
another one fits. -/
def Pending (env : GroupEnv F) (numDupes : ℕ) (tgt : Member F) (pending : List (DedupeDest F)) :
    Option (DedupeCtxt F) → Prop
  | none => pending = []
  | some ctxt =>
    (newDedupeCtxt numDupes tgt.eLoff env.len tgt.eFile).addExtents pending = some ctxt ∧
      pending.length < ctxt.maxQueable

/-- With a target: the members noted so far, those run and those pending. -/
structure Batched (tgt : Member F) (noted : List (Member F)) (pending : List (DedupeDest F))
    (st : GroupLoop F) : Prop where
  target : st.tgtExtent = some tgt
  noted_eq : st.ledger.map Prod.fst = noted
  matched : st.runs.flatMap ContextRun.places ++ pending.map (fun dest => (dest.file, dest.loff)) =
    queuedPlaces st.ledger
  runs_ok : ∀ run ∈ st.runs, run.Ok tgt

/-- How a turn with these members noted ends: the loop is left only with all the rest noted. -/
structure TurnOk (env : GroupEnv F) (numDupes : ℕ) (tgt : Member F)
    (noted rest : List (Member F)) (stop : Bool) (st : GroupLoop F) : Prop where
  refs : st.Refs
  batched : ∃ pending, Pending env numDupes tgt pending st.ctxt ∧
    Batched tgt (if stop then noted ++ rest else noted) pending st
  closed : stop = true ∨ rest = [] → st.ctxt = none

variable {env : GroupEnv F} {numDupes : ℕ} {tgt m : Member F} {noted rest : List (Member F)}
  {pending : List (DedupeDest F)} {st : GroupLoop F}

omit [DecidableEq F] in
theorem Batched.note (h : Batched tgt noted pending st) {fate : MemberFate}
    (hfate : fate ≠ .queued) : Batched tgt (noted ++ [m]) pending (st.note m fate) where
  target := h.target
  noted_eq := by simp [GroupLoop.note, h.noted_eq]
  matched := by
    rw [GroupLoop.note, h.matched]
    simp [queuedPlaces, hfate]
  runs_ok := h.runs_ok

omit [DecidableEq F] in
theorem queuedPlaces_append (l l' : List (Member F × MemberFate)) :
    queuedPlaces (l ++ l') = queuedPlaces l ++ queuedPlaces l' := by
  simp [queuedPlaces]

theorem reopenTarget_spec (hrefs : st.Refs) (hnone : st.ctxt = none)
    (h : Batched tgt noted [] st) : TurnOk env numDupes tgt noted rest
      (st.reopenTarget env rest tgt).1 (st.reopenTarget env rest tgt).2 := by
  obtain ⟨hopened, openFiles, fdRefs, heq, -, -⟩ :=
    filerecOpenOnce_spec { st with reopens := st.reopens + 1 } tgt.eFile
      (env.reopenErr st.reopens) ⟨hrefs.nodup, hrefs.held⟩
  unfold reopenTarget
  generalize { st with reopens := st.reopens + 1 }.filerecOpenOnce tgt.eFile
    (env.reopenErr st.reopens) = opened at hopened heq
  obtain ⟨ret, opened⟩ := opened
  dsimp only at hopened heq ⊢
  split_ifs with hret
  · refine ⟨⟨hopened.nodup, hopened.held⟩, ⟨[], by rw [heq]; simp [hnone, Pending], ?_⟩,
      fun _ => by rw [heq]; exact hnone⟩
    have hfailed : queuedPlaces (rest.map fun m => (m, MemberFate.reopenError)) = [] := by
      simp [queuedPlaces, List.filter_map, Function.comp_def]
    rw [heq]
    refine ⟨h.target, by simp [h.noted_eq, Function.comp_def], ?_, h.runs_ok⟩
    rw [queuedPlaces_append, hfailed, List.append_nil]
    exact h.matched
  · refine ⟨hopened, ⟨[], by rw [heq]; simp [hnone, Pending], ?_⟩, fun _ => by rw [heq]; exact hnone⟩
    rw [heq]
    exact ⟨h.target, h.noted_eq, h.matched, h.runs_ok⟩

theorem closeFiles_last (hrefs : st.Refs) : closeFiles env [] st =
    some (false, { st with ctxt := none, openFiles := [], fdRefs := fun _ => 0 }) := by
  rw [closeFiles, filerecCloseOpenList_eq hrefs]
  rfl

theorem closeFiles_spec (hrefs : st.Refs) (h : Batched tgt noted [] st) :
    ∃ stop st', closeFiles env rest st = some (stop, st') ∧
      TurnOk env numDupes tgt noted rest stop st' := by
  obtain ⟨ctxt, tgtExtent, openFiles, fdRefs, reopens, runs, ledger⟩ := st
  obtain rfl : tgtExtent = some tgt := h.target
  unfold closeFiles
  rw [filerecCloseOpenList_eq hrefs]
  dsimp only
  set freed : GroupLoop F := ⟨none, some tgt, [], fun _ => 0, reopens, runs, ledger⟩ with hfreed
  have hrefs' : freed.Refs := ⟨by simp [hfreed], by simp [hfreed]⟩
  have hbatched : Batched tgt noted [] freed := ⟨rfl, h.noted_eq, h.matched, h.runs_ok⟩
  by_cases hlast : rest.isEmpty
  · rw [if_pos hlast]
    exact ⟨false, freed, rfl, hrefs', ⟨[], rfl, hbatched⟩, fun _ => rfl⟩
  · rw [if_neg hlast]
    exact ⟨_, _, rfl, reopenTarget_spec hrefs' rfl hbatched⟩

/-- A context that holds destinations is run, and each of them has its result. -/
theorem runDedupe_spec {ctxt : DedupeCtxt F} (hrefs : st.Refs) (h : Batched tgt noted pending st)
    (hqueued : (newDedupeCtxt numDupes tgt.eLoff env.len tgt.eFile).addExtents pending =
      some ctxt) :
    ∃ stop st', runDedupe env rest ctxt st = some (stop, st') ∧
      TurnOk env numDupes tgt noted rest stop st' := by
  obtain ⟨hnum, hlist, hlen, hsource⟩ : ctxt.numQueued = pending.length ∧
      ctxt.queued = pending.map .new ∧ ctxt.len = env.len ∧
      (ctxt.ioctlFile, ctxt.ioctlFileOff) = tgt.place := by
    rw [(DedupeCtxt.addExtents_eq hqueued).1]
    simp [newDedupeCtxt, Member.place]
  unfold runDedupe
  rw [hnum, hlen]
  by_cases hempty : pending = []
  · subst hempty
    rw [if_pos List.length_nil]
    exact closeFiles_spec hrefs h
  rw [if_neg (by simpa using hempty)]
  obtain ⟨err, fin, rounds, hrun, hsettled, -⟩ :=
    (env.kernel st.runs.length).dedupeExtents_spec hqueued
  obtain ⟨results, popped, hpop, -, order, hperm, hresults⟩ := hsettled.popResults hempty
  rw [hrun _ le_rfl]
  dsimp only
  rw [hpop _ le_rfl]
  have hplaces : ContextRun.places ⟨ctxt, results⟩ =
      pending.map fun dest => (dest.file, dest.loff) := by
    rw [ContextRun.places, hlist, List.map_map]
    rfl
  have hfiles : order.map DedupeDest.file = results.map DedupeResult.file := by
    rw [← List.forall₂_eq_eq_eq, List.forall₂_map_left_iff, List.forall₂_map_right_iff]
    exact hresults.imp fun _ _ hresult => hresult.1.symm
  have hok : ContextRun.Ok tgt ⟨ctxt, results⟩ := by
    refine ⟨by simpa [hlist] using hempty, hsource, ?_⟩
    rw [hlist, List.map_map, ← hfiles]
    exact hperm.map DedupeDest.file
  refine closeFiles_spec ⟨hrefs.nodup, hrefs.held⟩ ⟨h.target, h.noted_eq, ?_, ?_⟩
  · rw [List.map_nil, List.append_nil, List.flatMap_append, List.flatMap_singleton, hplaces]
    exact h.matched
  · exact List.forall_mem_append.mpr ⟨h.runs_ok, List.forall_mem_singleton.mpr hok⟩

theorem skipMember_spec (hrefs : st.Refs) (h : Batched tgt noted pending st)
    (hpending : Pending env numDupes tgt pending st.ctxt) :
    ∃ stop st', skipMember env rest st = some (stop, st') ∧
      TurnOk env numDupes tgt noted rest stop st' := by
  unfold skipMember
  cases hctxt : st.ctxt with
  | none => exact ⟨false, st, rfl, hrefs, ⟨pending, hpending, h⟩, fun _ => hctxt⟩
  | some ctxt =>
    rw [hctxt] at hpending
    dsimp only
    split_ifs with hlast
    · exact runDedupe_spec hrefs h hpending.1
    · refine ⟨false, st, rfl, hrefs, ⟨pending, hctxt ▸ hpending, h⟩, fun hend => ?_⟩
      simp only [Bool.false_eq_true, false_or] at hend
      rw [hend] at hlast
      exact absurd rfl hlast

omit [DecidableEq F] in
theorem addExtents_append {ctxt ctxt' : DedupeCtxt F} {dests dests' : List (DedupeDest F)}
    (h : ctxt.addExtents dests = some ctxt') :
    ctxt.addExtents (dests ++ dests') = ctxt'.addExtents dests' := by
  induction dests generalizing ctxt with
  | nil =>
    obtain rfl := Option.some.inj h
    rfl
  | cons dest dests ih =>
    rw [DedupeCtxt.addExtents] at h
    rw [List.cons_append, DedupeCtxt.addExtents]
    cases hadd : ctxt.addExtentToDedupe dest with
    | none => simp [hadd] at h
    | some added =>
      rw [hadd, Option.bind_some] at h
      exact ih h

theorem queueMember_spec {ctxt : DedupeCtxt F} (hrefs : st.Refs)
    (h : Batched tgt noted pending st) (hpending : Pending env numDupes tgt pending (some ctxt)) :
    ∃ stop st', queueMember env m rest ctxt st = some (stop, st') ∧
      TurnOk env numDupes tgt (noted ++ [m]) rest stop st' := by
  obtain ⟨hqueued, hroom⟩ := hpending
  have hnum : ctxt.numQueued = pending.length := by
    rw [(DedupeCtxt.addExtents_eq hqueued).1]
    simp [newDedupeCtxt]
  unfold queueMember
  by_cases hshared : (env.tgtMapped && m.found.alreadyShared) = true
  · rw [if_pos hshared]
    have hbatched : Batched tgt noted pending { st with ctxt := some ctxt } :=
      ⟨h.target, h.noted_eq, h.matched, h.runs_ok⟩
    have hpending : Pending env numDupes tgt pending
        ({ st with ctxt := some ctxt }.note m .alreadyShared).ctxt := ⟨hqueued, hroom⟩
    exact skipMember_spec ⟨hrefs.nodup, hrefs.held⟩ (hbatched.note (by decide)) hpending
  rw [if_neg hshared]
  generalize (if env.tgtMapped then m.found.unshared
    else dedupeShareableLen env.blocksize env.len) = unshared
  dsimp only
  set dest : DedupeDest F := ⟨m.eFile, m.eLoff, unshared⟩ with hdest
  set added : DedupeCtxt F := { ctxt with
    queued := ctxt.queued ++ [.new dest], numQueued := ctxt.numQueued + 1 } with hadded
  have hadd : ctxt.addExtentToDedupe dest =
      some (ctxt.maxQueable - (ctxt.numQueued + 1), added) := by
    rw [DedupeCtxt.addExtentToDedupe, if_neg (by omega)]
  have hqueued' : (newDedupeCtxt numDupes tgt.eLoff env.len tgt.eFile).addExtents
      (pending ++ [dest]) = some added := by
    rw [addExtents_append hqueued, DedupeCtxt.addExtents, hadd]
    rfl
  have hbatched : Batched tgt (noted ++ [m]) (pending ++ [dest])
      ({ st with ctxt := some added }.note m .queued) := by
    refine ⟨h.target, by simp [GroupLoop.note, h.noted_eq], ?_, h.runs_ok⟩
    rw [GroupLoop.note, queuedPlaces_append, ← h.matched, List.map_append, List.append_assoc]
    rfl
  have hrefs' : Refs ({ st with ctxt := some added }.note m .queued) := ⟨hrefs.nodup, hrefs.held⟩
  rw [hadd]
  dsimp only
  split_ifs with hmore
  · refine ⟨false, _, rfl, hrefs', ⟨_, ⟨hqueued', ?_⟩, hbatched⟩, fun hend => ?_⟩
    · rw [List.length_append, List.length_singleton, hadded]
      dsimp only
      omega
    · simp only [Bool.false_eq_true, false_or] at hend
      rw [hend] at hmore
      exact absurd hmore.2 (by simp)
  · exact runDedupe_spec hrefs' hbatched hqueued'

omit [DecidableEq F] in
theorem pending_none (h : Pending env numDupes tgt pending none) : pending = [] := h

omit [DecidableEq F] in
theorem pending_new (hmax : 2 ≤ numDupes) : Pending env numDupes tgt []
    (some (newDedupeCtxt numDupes tgt.eLoff env.len tgt.eFile)) := by
  refine ⟨rfl, ?_⟩
  simp only [newDedupeCtxt, List.length_nil, MAX_DEDUPES_PER_IOCTL]
  omega

theorem memberTurn_batched (hrefs : st.Refs) (hmax : 2 ≤ numDupes)
    (h : Batched tgt noted pending st) (hpending : Pending env numDupes tgt pending st.ctxt) :
    ∃ stop st', memberTurn env numDupes m rest st = some (stop, st') ∧
      TurnOk env numDupes tgt (noted ++ [m]) rest stop st' := by
  obtain ⟨hopened, openFiles, fdRefs, heq, -, -⟩ :=
    filerecOpenOnce_spec st m.eFile m.found.openErr hrefs
  unfold memberTurn
  generalize st.filerecOpenOnce m.eFile m.found.openErr = opened at hopened heq
  obtain ⟨ret, opened⟩ := opened
  dsimp only at hopened heq ⊢
  have hbatched : Batched tgt noted pending opened := by
    rw [heq]
    exact ⟨h.target, h.noted_eq, h.matched, h.runs_ok⟩
  have hpending' : Pending env numDupes tgt pending opened.ctxt := by
    rw [heq]
    exact hpending
  by_cases hret : ret ≠ 0
  · rw [if_pos hret]
    refine skipMember_spec ⟨hopened.nodup, hopened.held⟩ (hbatched.note ?_) hpending'
    split_ifs <;> decide
  rw [if_neg hret]
  by_cases hchanged : m.sizeChanged env = true
  · rw [if_pos hchanged]
    exact skipMember_spec ⟨hopened.nodup, hopened.held⟩ (hbatched.note (by decide)) hpending'
  rw [if_neg hchanged, hbatched.target]
  cases hctxt : opened.ctxt with
  | some ctxt => exact queueMember_spec hopened hbatched (hctxt ▸ hpending')
  | none =>
    rw [hctxt] at hpending'
    obtain rfl : pending = [] := hpending'
    exact queueMember_spec hopened hbatched (pending_new hmax)

structure Ended (tgt : Member F) (noted : List (Member F)) (st : GroupLoop F) : Prop where
  refs : st.Refs
  closed : st.ctxt = none
  batched : Batched tgt noted [] st

theorem memberLoop_batched (hmax : 2 ≤ numDupes) (members : List (Member F))
    {noted : List (Member F)} {pending : List (DedupeDest F)} {st : GroupLoop F} (hrefs : st.Refs)
    (h : Batched tgt noted pending st) (hpending : Pending env numDupes tgt pending st.ctxt)
    (hdone : members = [] → st.ctxt = none) :
    ∃ fin, memberLoop env numDupes members st = some fin ∧ Ended tgt (noted ++ members) fin := by
  induction members generalizing noted pending st with
  | nil =>
    have hclosed := hdone rfl
    rw [hclosed] at hpending
    obtain rfl := pending_none hpending
    exact ⟨st, rfl, hrefs, hclosed, by simpa using h⟩
  | cons m rest ih =>
    obtain ⟨stop, st', hturn, hok⟩ : ∃ stop st', memberTurn env numDupes m rest st =
        some (stop, st') ∧ TurnOk env numDupes tgt (noted ++ [m]) rest stop st' :=
      memberTurn_batched hrefs hmax h hpending
    obtain ⟨pending', hpending', hbatched⟩ := hok.batched
    rw [memberLoop, hturn]
    have hnoted : noted ++ m :: rest = noted ++ [m] ++ rest := by simp
    rw [hnoted]
    cases stop with
    | true =>
      have hclosed := hok.closed (Or.inl rfl)
      rw [hclosed] at hpending'
      obtain rfl := pending_none hpending'
      exact ⟨st', rfl, hok.refs, hclosed, by simpa using hbatched⟩
    | false =>
      exact ih hok.refs (by simpa using hbatched) hpending' fun hnil => hok.closed (Or.inr hnil)

/-! ## The members before the target -/

omit [DecidableEq F] in
theorem noneUsable_concat {members : List (Member F)} {m : Member F} (h : NoneUsable env members)
    (hm : ¬ m.Usable env members) : NoneUsable env (members ++ [m]) := by
  intro before d after heq
  rcases List.eq_nil_or_concat after with rfl | ⟨after', last, rfl⟩
  · obtain ⟨rfl, hlast⟩ := List.append_inj' heq rfl
    obtain rfl := List.singleton_inj.mp hlast
    exact hm
  · rw [List.concat_eq_append, ← List.cons_append, ← List.append_assoc] at heq
    exact h before d after' (List.append_inj' heq rfl).1

theorem skipMember_of_none (h : st.ctxt = none) : skipMember env rest st = some (false, st) := by
  rw [skipMember, h]

/-- As long as there is no target, only files of unusable members are open. -/
structure Searching (env : GroupEnv F) (before : List (Member F)) (st : GroupLoop F) : Prop where
  refs : st.Refs
  target : st.tgtExtent = none
  noCtxt : st.ctxt = none
  runs : st.runs = []
  noted_eq : st.ledger.map Prod.fst = before
  unqueued : queuedPlaces st.ledger = []
  unusable : NoneUsable env before
  opened : ∀ f, f ∈ st.openFiles ↔ ∃ d ∈ before, d.eFile = f ∧ d.found.openErr = 0

/-- A member that cannot be used, with the files that are open after its turn. -/
theorem Searching.note {before : List (Member F)} (h : Searching env before st)
    {openFiles : List F} {fdRefs : F → ℕ} {fate : MemberFate} (hfate : fate ≠ .queued)
    (hrefs : Refs { st with openFiles := openFiles, fdRefs := fdRefs })
    (hopen : ∀ f, f ∈ openFiles ↔ f ∈ st.openFiles ∨ f = m.eFile ∧ m.found.openErr = 0)
    (hm : ¬ m.Usable env before) : Searching env (before ++ [m])
      ({ st with openFiles := openFiles, fdRefs := fdRefs }.note m fate) where
  refs := ⟨hrefs.nodup, hrefs.held⟩
  target := h.target
  noCtxt := h.noCtxt
  runs := h.runs
  noted_eq := by simp [GroupLoop.note, h.noted_eq]
  unqueued := by
    rw [GroupLoop.note, queuedPlaces_append]
    dsimp only
    rw [h.unqueued]
    simp [queuedPlaces, hfate]
  unusable := noneUsable_concat h.unusable hm
  opened := by
    intro f
    rw [GroupLoop.note]
    dsimp only
    rw [hopen f, h.opened f]
    simp only [List.mem_append, List.mem_singleton, or_and_right, exists_or, exists_eq_left]
    rw [@eq_comm _ f]

theorem memberLoop_searching (hmax : 2 ≤ numDupes) (members before : List (Member F))
    (st : GroupLoop F) (h : Searching env before st) :
    ∃ fin, memberLoop env numDupes members st = some fin ∧ fin.Refs ∧ fin.ctxt = none ∧
      fin.Accounts env (before ++ members) := by
  induction members generalizing before st with
  | nil =>
    refine ⟨st, rfl, h.refs, h.noCtxt, Or.inl ?_⟩
    rw [List.append_nil]
    exact ⟨h.unusable, h.noted_eq, h.runs, h.unqueued⟩
  | cons m rest ih =>
    obtain ⟨hopened, openFiles, fdRefs, heq, hret, hmem⟩ :=
      filerecOpenOnce_spec st m.eFile m.found.openErr h.refs
    have hsplit : before ++ m :: rest = before ++ [m] ++ rest := by simp
    rw [memberLoop, memberTurn]
    generalize st.filerecOpenOnce m.eFile m.found.openErr = opened at hopened heq hret
    obtain ⟨ret, opened⟩ := opened
    dsimp only at hopened heq hret ⊢
    subst heq
    have husable : m.Usable env before ↔ ret = 0 ∧ m.sizeChanged env = false := by
      rw [hret, h.opened m.eFile, Member.Usable, or_comm]
    by_cases herr : ret ≠ 0
    · have hfate : (if ret = ENOENT then MemberFate.removed else .openError) ≠ .queued := by
        split_ifs <;> decide
      rw [if_pos herr, skipMember_of_none (by exact h.noCtxt), hsplit]
      exact ih _ _ (h.note hfate hopened hmem fun hm => herr (husable.mp hm).1)
    rw [if_neg herr]
    by_cases hchanged : m.sizeChanged env = true
    · have hm : ¬ m.Usable env before := fun hm =>
        absurd (husable.mp hm).2 (by rw [hchanged]; decide)
      rw [if_pos hchanged, skipMember_of_none (by exact h.noCtxt), hsplit]
      exact ih _ _ (h.note (by decide) hopened hmem hm)
    rw [if_neg hchanged]
    dsimp only
    rw [h.noCtxt, h.target]
    have huse : m.Usable env before := husable.mpr ⟨not_not.mp herr, by simpa using hchanged⟩
    by_cases hlast : rest.isEmpty
    · -- the last member is the first usable one: nothing is left for it
      obtain rfl := List.isEmpty_iff.mp hlast
      have hrefs : Refs (⟨none, none, openFiles, fdRefs, st.reopens, st.runs, st.ledger⟩ :
          GroupLoop F) := ⟨hopened.nodup, hopened.held⟩
      dsimp only
      rw [if_pos hlast, closeFiles_last hrefs]
      refine ⟨_, rfl, ⟨by simp, by simp⟩, rfl, Or.inr ⟨before, m, [], rfl, h.unusable, huse, ?_⟩⟩
      refine ⟨by simp [h.noted_eq], ?_, by simp [h.runs]⟩
      rw [h.unqueued, h.runs]
      rfl
    · rw [if_neg hlast]
      dsimp only
      set next : GroupLoop F := ⟨some (newDedupeCtxt numDupes m.eLoff env.len m.eFile), some m,
        openFiles, fdRefs, st.reopens, st.runs, st.ledger⟩ with hnext
      have hrefs : next.Refs := ⟨hopened.nodup, hopened.held⟩
      have hbatched : Batched m before [] next := by
        refine ⟨rfl, h.noted_eq, ?_, by simp [hnext, h.runs]⟩
        rw [hnext, h.unqueued, h.runs]
        rfl
      have hpending : Pending env numDupes m [] next.ctxt := pending_new hmax
      obtain ⟨fin, hrun, hend⟩ := memberLoop_batched hmax rest hrefs hbatched hpending
        fun hnil => absurd (by rw [hnil]; rfl) hlast
      refine ⟨fin, hrun, hend.refs, hend.closed, Or.inr ⟨before, m, rest, rfl, h.unusable, huse,
        hend.batched.noted_eq, ?_, hend.batched.runs_ok⟩⟩
      simpa using hend.batched.matched

end GroupLoop

/-- The run of a group: the members `clean_deduped()` leaves are accounted for, no assertion fires,
and no reference is kept. -/
theorem dedupe_extent_list_accounts (env : GroupEnv F) (members : List (Member F))
    (hmembers : 2 ≤ members.length) :
    (cleanDeduped Member.toGroupExtent env.len members = none ∧
      dedupeMembers env members = some .cleaned) ∨
    ∃ kept fin, cleanDeduped Member.toGroupExtent env.len members = some kept ∧
      dedupeMembers env members = some (.done fin) ∧ fin.Accounts env kept ∧
      fin.ctxt = none ∧ fin.openFiles = [] ∧ ∀ f, fin.fdRefs f = 0 := by
  rw [dedupeMembers, if_neg (by omega)]
  cases hclean : cleanDeduped Member.toGroupExtent env.len members with
  | none => exact Or.inl ⟨rfl, rfl⟩
  | some kept =>
    have hstart : GroupLoop.Searching env [] (⟨none, none, [], fun _ => 0, 0, [], []⟩ :
        GroupLoop F) :=
      ⟨⟨by simp, by simp⟩, rfl, rfl, rfl, rfl, rfl, fun before m after heq => by simp at heq,
        by simp⟩
    obtain ⟨st, hrun, hrefs, hctxt, haccounts⟩ :=
      GroupLoop.memberLoop_searching (two_le_cleanDeduped hclean) kept [] _ hstart
    refine Or.inr ⟨kept, { st with openFiles := [], fdRefs := fun _ => 0 }, rfl, ?_, haccounts,
      hctxt, rfl, fun _ => rfl⟩
    dsimp only
    rw [hrun]
    dsimp only
    rw [GroupLoop.filerecCloseOpenList_eq hrefs]
    dsimp only
    rw [if_neg (by simp [hctxt]), GroupLoop.addSharedExtentsPost_held]
    split_ifs <;> rfl

section Example

def groupEnv : GroupEnv ℕ := ⟨4096, false, 4096, true, fun _ => 0, fun _ => refusesAhead, false⟩

def threeMembers : List (Member ℕ) :=
  [⟨⟨1, 0, 1048576, 4096⟩, ⟨0, some 4096, false, 4096, 0, true⟩⟩,
   ⟨⟨2, 0, 1048576, 4096⟩, ⟨0, some 4096, false, 4096, 0, true⟩⟩,
   ⟨⟨3, 0, 2097152, 4096⟩, ⟨0, some 4096, false, 4096, 0, true⟩⟩]

theorem dedupe_extent_list_accounts_three :
    (cleanDeduped Member.toGroupExtent groupEnv.len threeMembers = none ∧
      dedupeMembers groupEnv threeMembers = some .cleaned) ∨
    ∃ kept fin, cleanDeduped Member.toGroupExtent groupEnv.len threeMembers = some kept ∧
      dedupeMembers groupEnv threeMembers = some (.done fin) ∧ fin.Accounts groupEnv kept ∧
      fin.ctxt = none ∧ fin.openFiles = [] ∧ ∀ f, fin.fdRefs f = 0 :=
  dedupe_extent_list_accounts groupEnv threeMembers (by decide)

def notedFiles : Option (GroupEnd ℕ) → Option (List ℕ)
  | some (.done st) => some (st.ledger.map fun e => e.1.eFile)
  | _ => none

/-- Nothing is noted of the member `clean_deduped()` removes. -/
theorem culled_member_unaccounted : ∃ fin,
    dedupeMembers groupEnv threeMembers = some (.done fin) ∧
      ¬ fin.Accounts groupEnv threeMembers := by
  have hnoted : notedFiles (dedupeMembers groupEnv threeMembers) = some [3] := by decide
  match hrun : dedupeMembers groupEnv threeMembers, hnoted with
  | some (.done fin), hnoted =>
    refine ⟨fin, rfl, fun h => ?_⟩
    have hlength : fin.ledger.length = 1 := by
      simpa using congrArg List.length (Option.some.inj hnoted)
    have hthree : threeMembers.length = 3 := rfl
    rcases h with ⟨-, hledger, -⟩ | ⟨before, tgt, after, hmembers, -, -, hledger, -⟩
    · rw [← hledger, List.length_map] at hthree
      omega
    · have hall := congrArg List.length hledger
      rw [hmembers] at hthree
      simp only [List.length_map, List.length_append, List.length_cons] at hall hthree
      omega

end Example

end Oans
