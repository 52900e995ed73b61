import Oans.HashTree
import Oans.HoleSkip
import Oans.ResultsTree

/-!
# The search within extents

`compare_extents()` walks the loaded blocks of two files side by side from a pair of equal blocks
on, in rounds: skip to where the digests agree, follow the run of agreeing contiguous blocks, record
it. A cursor is a block of a file's tree with what stands before and after it, so moving it never
leaves the file.
-/

namespace Oans

/-- A file some blocks of which are loaded, each of them on the grid. -/
structure BlockFile (δ : Type*) (bs : Blocksize) where
  fileid : ℤ
  size : ℕ
  blocks : List (FileBlock δ)
  size_lt : size < 2 ^ 63
  sorted : ByLoff blocks
  of_file : ∀ b ∈ blocks, b.bFile = fileid
  on_grid : ∀ b ∈ blocks, bs.bytes ∣ b.bLoff ∧ b.bLoff < size

variable {δ : Type*} {bs : Blocksize}

namespace BlockFile

def blockLen (f : BlockFile δ bs) (b : FileBlock δ) : ℕ :=
  if wrap64 (b.bLoff + bs) ≤ f.size then bs
  else if f.size ≤ b.bLoff then 0
  else (f.size - b.bLoff) % bs

/-- A block of the file's tree, where the tree is split at it. -/
structure Cursor (f : BlockFile δ bs) where
  before : List (FileBlock δ)
  block : FileBlock δ
  rest : List (FileBlock δ)
  split : f.blocks = before ++ block :: rest

namespace Cursor

variable {f : BlockFile δ bs}

def endOfBlockList (c : f.Cursor) : Bool := c.rest.isEmpty

/-- `get_next_block()`: nothing where it aborts. -/
def getNextBlock (c : f.Cursor) : Option f.Cursor :=
  match c with
  | ⟨_, _, [], _⟩ => none
  | ⟨before, block, next :: rest, h⟩ => some ⟨before ++ [block], next, rest, by simpa using h⟩

theorem rest_of_getNextBlock {c c' : f.Cursor} (h : c.getNextBlock = some c') :
    c.rest = c'.block :: c'.rest := by
  obtain ⟨before, block, rest, hsplit⟩ := c
  cases rest with
  | nil => simp [getNextBlock] at h
  | cons next rest =>
    obtain rfl := Option.some.inj h
    rfl

theorem length_getNextBlock {c c' : f.Cursor} (h : c.getNextBlock = some c') :
    c'.rest.length < c.rest.length := by
  rw [rest_of_getNextBlock h, List.length_cons]
  exact Nat.lt_succ_self _

theorem exists_getNextBlock {c : f.Cursor} (h : c.endOfBlockList = false) :
    ∃ c', c.getNextBlock = some c' := by
  obtain ⟨before, block, rest, hsplit⟩ := c
  cases rest with
  | nil => simp [endOfBlockList] at h
  | cons next rest => exact ⟨_, rfl⟩

theorem mem_blocks (c : f.Cursor) : c.block ∈ f.blocks := by
  rw [c.split]
  exact List.mem_append_right _ List.mem_cons_self

theorem lt_of_getNextBlock {c c' : f.Cursor} (h : c.getNextBlock = some c') :
    c.block.bLoff < c'.block.bLoff := by
  have hsorted := f.sorted
  rw [c.split, rest_of_getNextBlock h] at hsorted
  exact (List.pairwise_cons.mp (List.pairwise_append.mp hsorted).2.1).1 _ List.mem_cons_self

structure Later (c c' : f.Cursor) : Prop where
  length_le : c'.rest.length ≤ c.rest.length
  loff_le : c.block.bLoff ≤ c'.block.bLoff

theorem Later.refl (c : f.Cursor) : c.Later c := ⟨le_rfl, le_rfl⟩

theorem Later.trans {c c' c'' : f.Cursor} (h : c.Later c') (h' : c'.Later c'') : c.Later c'' :=
  ⟨h'.length_le.trans h.length_le, h.loff_le.trans h'.loff_le⟩

theorem later_of_getNextBlock {c c' : f.Cursor} (h : c.getNextBlock = some c') : c.Later c' :=
  ⟨(length_getNextBlock h).le, (lt_of_getNextBlock h).le⟩

end Cursor

theorem wrap64_blocksize {b : FileBlock δ} {f : BlockFile δ bs} (h : b ∈ f.blocks) :
    wrap64 (b.bLoff + bs) = b.bLoff + bs := by
  have hloff := (f.on_grid b h).2
  have hsize := f.size_lt
  have hbs := bs.le_max
  unfold MAX_BLOCKSIZE at hbs
  exact Nat.mod_eq_of_lt (by omega)

/-- A block of the grid ends where the next one starts, or with the file. -/
theorem blockLen_eq {b : FileBlock δ} {f : BlockFile δ bs} (h : b ∈ f.blocks) :
    f.blockLen b = min bs.bytes (f.size - b.bLoff) := by
  have hloff := (f.on_grid b h).2
  rw [blockLen, wrap64_blocksize h]
  split_ifs with hfits hend
  · omega
  · omega
  · rw [Nat.mod_eq_of_lt (by omega)]
    omega

theorem blockLen_spec {b : FileBlock δ} {f : BlockFile δ bs} (h : b ∈ f.blocks) :
    0 < f.blockLen b ∧ b.bLoff + f.blockLen b ≤ f.size := by
  have hloff := (f.on_grid b h).2
  have hpos := bs.pos
  rw [blockLen_eq h]
  omega

end BlockFile

structure Match (δ : Type*) where
  digest : δ
  soff : ℕ × ℕ
  eoff : ℕ × ℕ
  deriving DecidableEq, Repr

namespace ResultsTree

variable [DecidableEq δ]

def insertPair (g : DupeExtents δ) (e₀ e₁ : Extent) : DupeExtents δ :=
  (g.insertExtentListFree e₀).insertExtentListFree e₁

/-- `insert_result()`, with memory to spare: nothing where it aborts. -/
def insertResult (res : ResultsTree δ) (digest : δ) (recs : ℤ × ℤ) (startoff endoff : ℕ × ℕ) :
    Option (ResultsTree δ) :=
  let e₀ : Extent := ⟨recs.1, startoff.1, 0, 0⟩
  let e₁ : Extent := ⟨recs.2, startoff.2, 0, 0⟩
  let len := wrap64 (endoff.1 + 2 ^ 64 - startoff.1 + 1)
  let res := res.findAllocDext digest len
  match res.findDupeExtents digest len with
  | none => none
  | some dext =>
    if dext.deLen ≠ len then none
    else some
      { groups := res.groups.map fun g => if g.key = (len, digest) then insertPair g e₀ e₁ else g
        numDupes := res.numDupes
        numExtents := res.numExtents + ((insertPair dext e₀ e₁).deNumDupes - dext.deNumDupes)
        keys_nodup := by
          have hkeys : (DupeExtents.key ∘ fun g : DupeExtents δ =>
              if g.key = (len, digest) then insertPair g e₀ e₁ else g) = DupeExtents.key := by
            funext g
            simp only [Function.comp_apply, insertPair]
            split <;> simp
          rw [List.map_map, hkeys]
          exact res.keys_nodup }

/-- The group is found by the length it was asked for. -/
theorem exists_insertResult (res : ResultsTree δ) (digest : δ) (recs : ℤ × ℤ)
    (startoff endoff : ℕ × ℕ) : ∃ res', res.insertResult digest recs startoff endoff = some res' := by
  have hfind := res.findDupeExtents_findAllocDext digest
    (wrap64 (endoff.1 + 2 ^ 64 - startoff.1 + 1))
  have hkey := List.find?_some hfind
  simp only [DupeExtents.key, decide_eq_true_eq, Prod.mk.injEq] at hkey
  rw [insertResult]
  simp only [hfind, hkey.1]
  exact ⟨_, if_neg (not_not_intro rfl)⟩

end ResultsTree

/-- The results tree during a search, with what was passed to `insert_result()` in order. -/
structure Search (δ : Type*) where
  res : ResultsTree δ
  log : List (Match δ)

/-- How the phase that follows a run ends. -/
structure MatchPhase (f g : BlockFile δ bs) where
  orig : f.Cursor
  block : g.Cursor
  fin : Option (f.Cursor × g.Cursor)
  ids : List δ
  matchmore : Bool

section Runs

variable {f g : BlockFile δ bs}

structure Agrees (f g : BlockFile δ bs) (p : FileBlock δ × FileBlock δ) : Prop where
  left : p.1 ∈ f.blocks
  right : p.2 ∈ g.blocks
  digest : p.2.bParent = p.1.bParent

def Behind (bs : Blocksize) (p q : FileBlock δ × FileBlock δ) : Prop :=
  q.1.bLoff = p.1.bLoff + bs.bytes ∧ q.2.bLoff = p.2.bLoff + bs.bytes

/-- Pairs of agreeing blocks from `p` to `q`, each pair right behind the one before it. -/
inductive IsRun (f g : BlockFile δ bs) : FileBlock δ × FileBlock δ →
    List (FileBlock δ × FileBlock δ) → FileBlock δ × FileBlock δ → Prop
  | one {p} (hp : Agrees f g p) : IsRun f g p [p] p
  | cons {p q r run} (hp : Agrees f g p) (hnext : Behind bs p q) (hrun : IsRun f g q run r) :
      IsRun f g p (p :: run) r

namespace IsRun

variable {p q : FileBlock δ × FileBlock δ} {run : List (FileBlock δ × FileBlock δ)}

theorem first (h : IsRun f g p run q) : run.head? = some p := by
  cases h <;> rfl

theorem last (h : IsRun f g p run q) : q ∈ run := by
  induction h with
  | one hp => exact List.mem_singleton_self _
  | cons hp hnext hrun ih => exact List.mem_cons_of_mem _ ih

theorem agrees (h : IsRun f g p run q) : ∀ x ∈ run, Agrees f g x := by
  induction h with
  | one hp => exact List.forall_mem_singleton.mpr hp
  | cons hp hnext hrun ih => exact List.forall_mem_cons.mpr ⟨hp, ih⟩

theorem contiguous (h : IsRun f g p run q) : run.IsChain (Behind bs) := by
  induction h with
  | one hp => exact List.isChain_singleton _
  | cons hp hnext hrun ih =>
    refine List.isChain_cons.mpr ⟨fun y hy => ?_, ih⟩
    rw [hrun.first] at hy
    exact Option.some.inj hy ▸ hnext

theorem advance (h : IsRun f g p run q) :
    p.1.bLoff ≤ q.1.bLoff ∧ q.1.bLoff + p.2.bLoff = p.1.bLoff + q.2.bLoff := by
  induction h with
  | one hp => exact ⟨le_rfl, rfl⟩
  | cons hp hnext hrun ih =>
    obtain ⟨hleft, hright⟩ := hnext
    omega

/-- On each side the blocks of a run make up one range: all but the last are whole. -/
theorem covers (h : IsRun f g p run q) {e : BlockFile δ bs}
    (side : FileBlock δ × FileBlock δ → FileBlock δ) (hmem : ∀ p, Agrees f g p → side p ∈ e.blocks)
    (hside : ∀ p q, Behind bs p q → (side q).bLoff = (side p).bLoff + bs.bytes) (x : ℕ) :
    (side p).bLoff ≤ x ∧ x < (side q).bLoff + e.blockLen (side q) ↔
      ∃ y ∈ run, (side y).bLoff ≤ x ∧ x < (side y).bLoff + e.blockLen (side y) := by
  induction h generalizing x with
  | one hp => simp
  | @cons p q r run hp hnext hrun ih =>
    have hq : Agrees f g q := hrun.agrees q (List.mem_of_head? hrun.first)
    have hloff := hside p q hnext
    have hinside := (e.on_grid _ (hmem q hq)).2
    have hwhole : e.blockLen (side p) = bs.bytes := by
      rw [BlockFile.blockLen_eq (hmem p hp)]
      omega
    have hbefore : (side q).bLoff < (side r).bLoff + e.blockLen (side r) := by
      refine ((ih (side q).bLoff).mpr ⟨q, List.mem_of_head? hrun.first, le_rfl, ?_⟩).2
      have := (BlockFile.blockLen_spec (hmem q hq)).1
      omega
    rw [List.exists_mem_cons_iff, ← ih x, hwhole]
    omega

end IsRun

/-- A match is real: both its ranges are made up of a run of agreeing blocks, lie in their files and
have one length. -/
structure RealMatch (checksum : List δ → δ) (f g : BlockFile δ bs) (m : Match δ)
    (run : List (FileBlock δ × FileBlock δ)) : Prop where
  agrees : ∀ p ∈ run, Agrees f g p
  contiguous : run.IsChain (Behind bs)
  digest : m.digest = checksum (run.map fun p => p.2.bParent)
  left : ∀ x, m.soff.1 ≤ x ∧ x ≤ m.eoff.1 ↔
    ∃ p ∈ run, p.1.bLoff ≤ x ∧ x < p.1.bLoff + f.blockLen p.1
  right : ∀ x, m.soff.2 ≤ x ∧ x ≤ m.eoff.2 ↔
    ∃ p ∈ run, p.2.bLoff ≤ x ∧ x < p.2.bLoff + g.blockLen p.2
  nonempty : m.soff.1 ≤ m.eoff.1 ∧ m.soff.2 ≤ m.eoff.2
  length_eq : m.eoff.1 - m.soff.1 = m.eoff.2 - m.soff.2
  inside : m.eoff.1 < f.size ∧ m.eoff.2 < g.size

end Runs

section Search

variable [DecidableEq δ] (checksum : List δ → δ) {f g : BlockFile δ bs}

/-- The loop that skips to a pair of equal digests: nothing where it aborts, and nothing found
where it walks off a tree. -/
def fastForward (extentEnd : ℕ) (orig : f.Cursor) (block : g.Cursor) :
    Option (Option (f.Cursor × g.Cursor)) :=
  if block.block.bParent ≠ orig.block.bParent ∧ block.block.bLoff < extentEnd then
    if orig.endOfBlockList ∨ block.endOfBlockList then some none
    else
      match _hnext : orig.getNextBlock, block.getNextBlock with
      | some orig', some block' => fastForward extentEnd orig' block'
      | _, _ => none
  else some (some (orig, block))
termination_by orig.rest.length
decreasing_by exact BlockFile.Cursor.length_getNextBlock _hnext

def matchLoop (extentEnd : ℕ) (orig : f.Cursor) (block : g.Cursor)
    (fin : Option (f.Cursor × g.Cursor)) (ids : List δ) : Option (MatchPhase f g) :=
  if block.block.bParent = orig.block.bParent ∧ block.block.bLoff < extentEnd then
    let fin := some (orig, block)
    let ids := ids ++ [block.block.bParent]
    if orig.endOfBlockList ∨ block.endOfBlockList then some ⟨orig, block, fin, ids, false⟩
    else
      match _hnext : orig.getNextBlock, block.getNextBlock with
      | some orig', some block' =>
        if orig'.block.bLoff ≠ wrap64 (orig.block.bLoff + bs) ∨
            block'.block.bLoff ≠ wrap64 (block.block.bLoff + bs) then
          some ⟨orig', block', fin, ids, false⟩
        else matchLoop extentEnd orig' block' fin ids
      | _, _ => none
  else some ⟨orig, block, fin, ids, true⟩
termination_by orig.rest.length
decreasing_by exact BlockFile.Cursor.length_getNextBlock _hnext

def BlockFile.Cursor.lastByte (c : f.Cursor) : ℕ :=
  wrap64 (f.blockLen c.block + c.block.bLoff + 2 ^ 64 - 1)

/-- `record_match()`: nothing where it or `insert_result()` aborts. -/
def recordMatch (st : Search δ) (digest : δ) (start fin : f.Cursor × g.Cursor) :
    Option (Search δ) :=
  if start.1.block.bFile ≠ f.fileid ∨ start.2.block.bFile ≠ g.fileid then none
  else
    let soff := (start.1.block.bLoff, start.2.block.bLoff)
    let eoff := (fin.1.lastByte, fin.2.lastByte)
    (st.res.insertResult digest (start.1.block.bFile, start.2.block.bFile) soff eoff).map
      fun res => ⟨res, st.log ++ [⟨digest, soff, eoff⟩]⟩

/-- From `next_match` to the end of the search or to the next `goto next_match`. -/
def searchRound (extentEnd : ℕ) (orig : f.Cursor) (block : g.Cursor) (st : Search δ) :
    Option (Search δ × Option (f.Cursor × g.Cursor)) := do
  match ← fastForward extentEnd orig block with
  | none => some (st, none)
  | some start =>
    let phase ← matchLoop extentEnd start.1 start.2 none []
    match phase.fin with
    | none => some (st, none)
    | some fin =>
      if fin.2.lastByte ≤ extentEnd then
        let st ← recordMatch st (checksum phase.ids) start fin
        if phase.matchmore then
          if fin.1.endOfBlockList ∨ fin.2.endOfBlockList then some (st, none)
          else if extentEnd < phase.block.block.bLoff then some (st, none)
          else
            let orig ← fin.1.getNextBlock
            let block ← fin.2.getNextBlock
            some (st, some (orig, block))
        else some (st, none)
      else some (st, none)

variable {checksum}

/-- Agreeing blocks are where the skipping stops. -/
theorem fastForward_spec (extentEnd : ℕ) (orig : f.Cursor) (block : g.Cursor) :
    (fastForward extentEnd orig block = some none ∧
      block.block.bParent ≠ orig.block.bParent) ∨
    ∃ o b, fastForward extentEnd orig block = some (some (o, b)) ∧ orig.Later o ∧ block.Later b ∧
      (block.block.bParent = orig.block.bParent → o = orig ∧ b = block) := by
  induction hn : orig.rest.length using Nat.strong_induction_on generalizing orig block with
  | _ n ih =>
    rw [fastForward]
    split_ifs with hdiffer hend
    · exact Or.inl ⟨rfl, hdiffer.1⟩
    · rw [not_or, Bool.not_eq_true, Bool.not_eq_true] at hend
      obtain ⟨o, ho⟩ := BlockFile.Cursor.exists_getNextBlock hend.1
      obtain ⟨b, hb⟩ := BlockFile.Cursor.exists_getNextBlock hend.2
      split
      · next o b ho hb =>
        rcases ih _ (hn ▸ BlockFile.Cursor.length_getNextBlock ho) o b rfl with hnone | hfound
        · exact Or.inl ⟨hnone.1, hdiffer.1⟩
        · obtain ⟨o', b', heq, hlater, hlater', -⟩ := hfound
          exact Or.inr ⟨o', b', heq, (BlockFile.Cursor.later_of_getNextBlock ho).trans hlater,
            (BlockFile.Cursor.later_of_getNextBlock hb).trans hlater', fun h => absurd h hdiffer.1⟩
      · next hnone => exact absurd hb (hnone o b ho)
    · exact Or.inr ⟨orig, block, rfl, .refl orig, .refl block, fun _ => ⟨rfl, rfl⟩⟩

theorem matchLoop_spec (extentEnd : ℕ) (orig : f.Cursor) (block : g.Cursor)
    (fin : Option (f.Cursor × g.Cursor)) (ids : List δ) :
    ∃ phase, matchLoop extentEnd orig block fin ids = some phase ∧
      ((phase.fin = fin ∧ phase.ids = ids ∧
        ¬ (block.block.bParent = orig.block.bParent ∧ block.block.bLoff < extentEnd)) ∨
      ∃ e₀ e₁ run, phase.fin = some (e₀, e₁) ∧
        IsRun f g (orig.block, block.block) run (e₀.block, e₁.block) ∧
        phase.ids = ids ++ run.map (fun p => p.2.bParent) ∧ orig.Later e₀ ∧ block.Later e₁) := by
  induction hn : orig.rest.length using Nat.strong_induction_on
    generalizing orig block fin ids with
  | _ n ih =>
    rw [matchLoop]
    split_ifs with hmatch hend
    · have hagrees : Agrees f g (orig.block, block.block) :=
        ⟨orig.mem_blocks, block.mem_blocks, hmatch.1⟩
      exact ⟨_, rfl, Or.inr ⟨orig, block, _, rfl, .one hagrees, rfl, .refl orig, .refl block⟩⟩
    · have hagrees : Agrees f g (orig.block, block.block) :=
        ⟨orig.mem_blocks, block.mem_blocks, hmatch.1⟩
      rw [not_or, Bool.not_eq_true, Bool.not_eq_true] at hend
      obtain ⟨o, ho⟩ := BlockFile.Cursor.exists_getNextBlock hend.1
      obtain ⟨b, hb⟩ := BlockFile.Cursor.exists_getNextBlock hend.2
      split
      · next o b ho hb =>
        split_ifs with hgap
        · exact ⟨_, rfl, Or.inr ⟨orig, block, _, rfl, .one hagrees, rfl, .refl orig, .refl block⟩⟩
        · rw [not_or, not_not, not_not, BlockFile.wrap64_blocksize orig.mem_blocks,
            BlockFile.wrap64_blocksize block.mem_blocks] at hgap
          obtain ⟨phase, hphase, hend⟩ := ih _ (hn ▸ BlockFile.Cursor.length_getNextBlock ho) o b
            (some (orig, block)) (ids ++ [block.block.bParent]) rfl
          refine ⟨phase, hphase, Or.inr ?_⟩
          rcases hend with ⟨hfin, hids, -⟩ | ⟨e₀, e₁, run, hfin, hrun, hids, hlater, hlater'⟩
          · exact ⟨orig, block, _, hfin, .one hagrees, hids, .refl orig, .refl block⟩
          · have hbehind : Behind bs (orig.block, block.block) (o.block, b.block) := hgap
            refine ⟨e₀, e₁, _, hfin, .cons hagrees hbehind hrun, ?_,
              (BlockFile.Cursor.later_of_getNextBlock ho).trans hlater,
              (BlockFile.Cursor.later_of_getNextBlock hb).trans hlater'⟩
            rw [hids, List.append_assoc, List.map_cons, List.singleton_append]
      · next hnone => exact absurd hb (hnone o b ho)
    · exact ⟨_, rfl, Or.inl ⟨rfl, rfl, hmatch⟩⟩

/-- A cursor's file and record are one, so nothing aborts and the match is passed on. -/
theorem recordMatch_spec (st : Search δ) (digest : δ) (start fin : f.Cursor × g.Cursor) :
    ∃ res, recordMatch st digest start fin = some ⟨res, st.log ++
      [⟨digest, (start.1.block.bLoff, start.2.block.bLoff), (fin.1.lastByte, fin.2.lastByte)⟩]⟩ := by
  have hleft := f.of_file _ start.1.mem_blocks
  have hright := g.of_file _ start.2.mem_blocks
  obtain ⟨res, hres⟩ := st.res.exists_insertResult digest
    (start.1.block.bFile, start.2.block.bFile) (start.1.block.bLoff, start.2.block.bLoff)
    (fin.1.lastByte, fin.2.lastByte)
  refine ⟨res, ?_⟩
  rw [recordMatch, if_neg (not_or.mpr ⟨not_not_intro hleft, not_not_intro hright⟩)]
  simp only
  rw [hres, Option.map_some]

/-- A round finds nothing, or records one run and goes on right behind it or not at all. It does
find something from agreeing blocks within its bounds on. -/
theorem searchRound_cases (extentEnd : ℕ) (orig : f.Cursor) (block : g.Cursor) (st : Search δ) :
    (searchRound checksum extentEnd orig block st = some (st, none) ∧
      (block.block.bParent = orig.block.bParent → block.block.bLoff < extentEnd →
        ∃ c : g.Cursor, extentEnd < c.lastByte)) ∨
    ∃ o b e₀ e₁ run st' next, orig.Later o ∧ block.Later b ∧ o.Later e₀ ∧ b.Later e₁ ∧
      IsRun f g (o.block, b.block) run (e₀.block, e₁.block) ∧ e₁.lastByte ≤ extentEnd ∧
      recordMatch st (checksum (run.map fun p => p.2.bParent)) (o, b) (e₀, e₁) = some st' ∧
      searchRound checksum extentEnd orig block st = some (st', next) ∧
      (next = none ∨ ∃ o' b', next = some (o', b') ∧ e₀.getNextBlock = some o' ∧
        e₁.getNextBlock = some b') := by
  rcases fastForward_spec extentEnd orig block with ⟨hnone, hdiffer⟩ | ⟨o, b, hfound, ho, hb, hsame⟩
  · refine Or.inl ⟨?_, fun h => absurd h hdiffer⟩
    rw [searchRound, hnone]
    rfl
  · obtain ⟨phase, hphase, ⟨hfin, -, hstop⟩ | ⟨e₀, e₁, run, hfin, hrun, hids, he₀, he₁⟩⟩ :=
      matchLoop_spec extentEnd o b none []
    · refine Or.inl ⟨?_, fun hparent hlt => ?_⟩
      · rw [searchRound, hfound]
        simp [hphase, hfin]
      · obtain ⟨rfl, rfl⟩ := hsame hparent
        exact absurd ⟨hparent, hlt⟩ hstop
    · by_cases hinside : e₁.lastByte ≤ extentEnd
      · right
        obtain ⟨res, hrecord⟩ := recordMatch_spec st (checksum phase.ids) (o, b) (e₀, e₁)
        obtain ⟨next, hround, hnext⟩ : ∃ next,
            searchRound checksum extentEnd orig block st = some (_, next) ∧
            (next = none ∨ ∃ o' b', next = some (o', b') ∧ e₀.getNextBlock = some o' ∧
              e₁.getNextBlock = some b') := by
          rw [searchRound, hfound]
          simp only [Option.bind_eq_bind, Option.bind_some, hphase, hfin, if_pos hinside, hrecord]
          split_ifs with hmore hend hpast
          · exact ⟨none, rfl, Or.inl rfl⟩
          · exact ⟨none, rfl, Or.inl rfl⟩
          · rw [not_or, Bool.not_eq_true, Bool.not_eq_true] at hend
            obtain ⟨o', ho'⟩ := BlockFile.Cursor.exists_getNextBlock hend.1
            obtain ⟨b', hb'⟩ := BlockFile.Cursor.exists_getNextBlock hend.2
            exact ⟨some (o', b'), by simp [ho', hb'], Or.inr ⟨o', b', rfl, ho', hb'⟩⟩
          · exact ⟨none, rfl, Or.inl rfl⟩
        rw [hids, List.nil_append] at hrecord hround
        exact ⟨o, b, e₀, e₁, run, _, next, ho, hb, he₀, he₁, hrun, hinside, hrecord, hround, hnext⟩
      · refine Or.inl ⟨?_, fun _ _ => ⟨e₁, not_le.mp hinside⟩⟩
        rw [searchRound, hfound]
        simp [hphase, hfin, hinside]

theorem later_of_searchRound {extentEnd : ℕ} {orig o : f.Cursor} {block b : g.Cursor}
    {st st' : Search δ}
    (h : searchRound checksum extentEnd orig block st = some (st', some (o, b))) :
    o.rest.length < orig.rest.length ∧ block.block.bLoff ≤ b.block.bLoff := by
  rcases @searchRound_cases _ _ _ checksum _ _ extentEnd orig block st with ⟨hnone, -⟩ |
    ⟨o₁, b₁, e₀, e₁, run, st₁, next, ho, hb, he₀, he₁, -, -, -, hround, hnext⟩
  · rw [hnone] at h
    simp at h
  · rw [hround, Option.some.injEq, Prod.mk.injEq] at h
    obtain ⟨-, rfl⟩ := h
    rcases hnext with hnone | ⟨o', b', heq, ho', hb'⟩
    · cases hnone
    · obtain ⟨rfl, rfl⟩ := Prod.mk.inj (Option.some.inj heq)
      have hlt := BlockFile.Cursor.length_getNextBlock ho'
      have hle := (ho.trans he₀).length_le
      have hle' := (hb.trans (he₁.trans (BlockFile.Cursor.later_of_getNextBlock hb'))).loff_le
      exact ⟨by omega, hle'⟩

variable (checksum) in
def nextMatch (extentEnd : ℕ) (orig : f.Cursor) (block : g.Cursor) (st : Search δ) :
    Option (Search δ) :=
  match _hround : searchRound checksum extentEnd orig block st with
  | none => none
  | some (st, none) => some st
  | some (st, some (orig, block)) => nextMatch extentEnd orig block st
termination_by orig.rest.length
decreasing_by exact (later_of_searchRound _hround).1

variable (checksum) in
/-- `compare_extents()`: nothing where it aborts. -/
def compareExtents (orig : f.Cursor) (block : g.Cursor) (searchLen : ℕ) (res : ResultsTree δ) :
    Option (Search δ) :=
  nextMatch checksum (wrap64 (block.block.bLoff + searchLen + 2 ^ 64 - 1)) orig block ⟨res, []⟩

def EqualLengths (f g : BlockFile δ bs) : Prop :=
  ∀ a ∈ f.blocks, ∀ b ∈ g.blocks, b.bParent = a.bParent → f.blockLen a = g.blockLen b

omit [DecidableEq δ] in
theorem lastByte_eq (c : f.Cursor) :
    c.lastByte = c.block.bLoff + f.blockLen c.block - 1 := by
  obtain ⟨hpos, hle⟩ := BlockFile.blockLen_spec c.mem_blocks
  have hsize := f.size_lt
  rw [BlockFile.Cursor.lastByte, wrap64]
  omega

omit [DecidableEq δ] in
theorem realMatch_of_isRun (hsame : EqualLengths f g) {o e₀ : f.Cursor} {b e₁ : g.Cursor}
    {run : List (FileBlock δ × FileBlock δ)}
    (hrun : IsRun f g (o.block, b.block) run (e₀.block, e₁.block)) :
    RealMatch checksum f g ⟨checksum (run.map fun p => p.2.bParent),
      (o.block.bLoff, b.block.bLoff), (e₀.lastByte, e₁.lastByte)⟩ run := by
  obtain ⟨hpos, hle⟩ := BlockFile.blockLen_spec e₀.mem_blocks
  obtain ⟨hpos', hle'⟩ := BlockFile.blockLen_spec e₁.mem_blocks
  have hlen := hsame _ e₀.mem_blocks _ e₁.mem_blocks (hrun.agrees _ hrun.last).digest
  obtain ⟨hadvance, hadvance'⟩ := hrun.advance
  simp only at hadvance hadvance'
  have hleft := lastByte_eq e₀
  have hright := lastByte_eq e₁
  exact
    { agrees := hrun.agrees
      contiguous := hrun.contiguous
      digest := rfl
      left := fun x => by
        rw [← hrun.covers Prod.fst (fun _ h => h.left) (fun _ _ h => h.1)]
        simp only
        omega
      right := fun x => by
        rw [← hrun.covers Prod.snd (fun _ h => h.right) (fun _ _ h => h.2)]
        simp only
        omega
      nonempty := by
        simp only
        omega
      length_eq := by
        simp only
        omega
      inside := by
        simp only
        omega }

/-- What a search has passed on is real and lies where it may look in the file walked. -/
def Sound (checksum : List δ → δ) (f g : BlockFile δ bs) (start extentEnd : ℕ) (log : List (Match δ)) :
    Prop :=
  ∀ m ∈ log, (∃ run, RealMatch checksum f g m run) ∧ start ≤ m.soff.2 ∧ m.eoff.2 ≤ extentEnd

theorem searchRound_spec (hsame : EqualLengths f g) {start extentEnd : ℕ} (orig : f.Cursor)
    (block : g.Cursor) {st : Search δ} (hstart : start ≤ block.block.bLoff)
    (hsound : Sound checksum f g start extentEnd st.log) :
    ∃ st' next, searchRound checksum extentEnd orig block st = some (st', next) ∧
      st.log <+: st'.log ∧ Sound checksum f g start extentEnd st'.log := by
  rcases @searchRound_cases _ _ _ checksum _ _ extentEnd orig block st with ⟨hnone, -⟩ |
    ⟨o, b, e₀, e₁, run, st₁, next, ho, hb, he₀, he₁, hrun, hinside, hrecord, hround, -⟩
  · exact ⟨st, none, hnone, List.prefix_refl _, hsound⟩
  · obtain ⟨res, hres⟩ := recordMatch_spec st (checksum (run.map fun p => p.2.bParent))
      (o, b) (e₀, e₁)
    rw [hrecord, Option.some.injEq] at hres
    subst hres
    refine ⟨_, next, hround, List.prefix_append _ _, fun m hm => ?_⟩
    rcases List.mem_append.mp hm with hm | hm
    · exact hsound m hm
    · rw [List.mem_singleton.mp hm]
      exact ⟨⟨run, realMatch_of_isRun hsame hrun⟩, hstart.trans hb.loff_le, hinside⟩

/-- The rounds end, without an abort, and keep what they have recorded. -/
theorem nextMatch_spec (hsame : EqualLengths f g) {start extentEnd : ℕ} (orig : f.Cursor)
    (block : g.Cursor) {st : Search δ} (hstart : start ≤ block.block.bLoff)
    (hsound : Sound checksum f g start extentEnd st.log) :
    ∃ st' st₁ next, nextMatch checksum extentEnd orig block st = some st' ∧
      searchRound checksum extentEnd orig block st = some (st₁, next) ∧ st.log <+: st₁.log ∧
      st₁.log <+: st'.log ∧ Sound checksum f g start extentEnd st'.log := by
  induction hn : orig.rest.length using Nat.strong_induction_on generalizing orig block st with
  | _ n ih =>
    obtain ⟨st₁, next, hround, hprefix, hsound₁⟩ := searchRound_spec hsame orig block hstart hsound
    cases next with
    | none =>
      refine ⟨st₁, st₁, none, ?_, hround, hprefix, List.prefix_refl _, hsound₁⟩
      rw [nextMatch]
      split <;> simp_all
    | some pair =>
      obtain ⟨o, b⟩ := pair
      obtain ⟨hlt, hle⟩ := later_of_searchRound hround
      obtain ⟨st', st₂, next, hrun, -, hprefix₁, hprefix₂, hsound'⟩ := ih _ (hn ▸ hlt) o b
        (hstart.trans hle) hsound₁ rfl
      refine ⟨st', st₁, _, ?_, hround, hprefix, hprefix₁.trans hprefix₂, hsound'⟩
      rw [nextMatch]
      split <;> simp_all

/-- From a pair of equal blocks within unbounded room the first round records a match. -/
theorem searchRound_records {extentEnd : ℕ} {orig : f.Cursor} {block : g.Cursor} (st : Search δ)
    (hparent : block.block.bParent = orig.block.bParent) (hlt : block.block.bLoff < extentEnd)
    (hmax : ∀ c : g.Cursor, c.lastByte ≤ extentEnd) :
    ∃ st' next, searchRound checksum extentEnd orig block st = some (st', next) ∧
      st'.log ≠ [] := by
  rcases @searchRound_cases _ _ _ checksum _ _ extentEnd orig block st with ⟨-, hnone⟩ |
    ⟨o, b, e₀, e₁, run, st₁, next, -, -, -, -, -, -, hrecord, hround, -⟩
  · obtain ⟨c, hc⟩ := hnone hparent hlt
    exact absurd (hmax c) (not_le.mpr hc)
  · obtain ⟨res, hres⟩ := recordMatch_spec st (checksum (run.map fun p => p.2.bParent))
      (o, b) (e₀, e₁)
    rw [hrecord, Option.some.injEq] at hres
    subst hres
    exact ⟨_, next, hround, by simp⟩

end Search

/-- Told to search no bytes from the start of a file on, the search has no bound and records. -/
theorem compareExtents_of_zero [DecidableEq δ] (checksum : List δ → δ) {f g : BlockFile δ bs}
    (orig : f.Cursor) (walk : g.Cursor) (res : ResultsTree δ)
    (hparent : walk.block.bParent = orig.block.bParent) (hsame : EqualLengths f g)
    (hzero : walk.block.bLoff = 0) :
    ∃ st, compareExtents checksum orig walk 0 res = some st ∧ st.log ≠ [] := by
  have hend : wrap64 (walk.block.bLoff + 0 + 2 ^ 64 - 1) = 2 ^ 64 - 1 := by
    rw [wrap64, hzero]
    omega
  have hnil : Sound checksum f g 0 (2 ^ 64 - 1) ([] : List (Match δ)) :=
    fun m hm => absurd hm List.not_mem_nil
  obtain ⟨st, st₁, next, hrun, hround, -, hprefix, -⟩ := @nextMatch_spec _ _ _ checksum f g
    hsame 0 _ orig walk ⟨res, []⟩ (Nat.zero_le _) hnil
  obtain ⟨st₂, next₂, hround₂, hlog⟩ := @searchRound_records _ _ _ checksum f g (2 ^ 64 - 1) orig
    walk ⟨res, []⟩ hparent (by omega) fun c => by
      rw [BlockFile.Cursor.lastByte, wrap64]
      omega
  rw [hround, Option.some.injEq, Prod.mk.injEq] at hround₂
  obtain ⟨rfl, -⟩ := hround₂
  refine ⟨st, by rw [compareExtents, hend, hrun], fun hnil => hlog ?_⟩
  exact List.prefix_nil.mp (hnil ▸ hprefix)

/-- The search ends without an abort and records real matches within the length to search, unless
it is told to search no bytes from the start of the file: then its end wraps around to the last
address, and it records what lies outside. -/
theorem compareExtents_sound_iff [DecidableEq δ] (checksum : List δ → δ) (f g : BlockFile δ bs)
    (orig : f.Cursor) (walk : g.Cursor) (searchLen : ℕ) (res : ResultsTree δ)
    (hlen : searchLen < 2 ^ 64) (hparent : walk.block.bParent = orig.block.bParent)
    (hsame : EqualLengths f g) :
    (∃ st, compareExtents checksum orig walk searchLen res = some st ∧
      ∀ m ∈ st.log, (∃ run, RealMatch checksum f g m run) ∧ walk.block.bLoff ≤ m.soff.2 ∧
        m.eoff.2 < walk.block.bLoff + searchLen) ↔
    ¬ (searchLen = 0 ∧ walk.block.bLoff = 0) := by
  constructor
  · rintro ⟨st, hrun, hinside⟩ ⟨rfl, hzero⟩
    obtain ⟨st', hrun', hlog⟩ := compareExtents_of_zero checksum orig walk res hparent hsame hzero
    obtain rfl := Option.some.inj (hrun.symm.trans hrun')
    obtain ⟨m, hm⟩ := List.exists_mem_of_ne_nil _ hlog
    have hin := (hinside m hm).2.2
    omega
  · intro hne
    obtain ⟨extentEnd, hend⟩ : ∃ e, e = wrap64 (walk.block.bLoff + searchLen + 2 ^ 64 - 1) :=
      ⟨_, rfl⟩
    have hnil : Sound checksum f g walk.block.bLoff extentEnd ([] : List (Match δ)) :=
      fun m hm => absurd hm List.not_mem_nil
    obtain ⟨st, -, -, hrun, -, -, -, hsound⟩ := @nextMatch_spec _ _ _ checksum f g hsame _ _ orig
      walk ⟨res, []⟩ le_rfl hnil
    refine ⟨st, by rw [compareExtents, ← hend, hrun], fun m hm => ?_⟩
    obtain ⟨⟨run, hreal⟩, hstart, hbefore⟩ := hsound m hm
    have hle := hreal.nonempty.2
    have hloff := (g.on_grid _ walk.mem_blocks).2
    have hsize := g.size_lt
    refine ⟨⟨run, hreal⟩, hstart, ?_⟩
    rw [wrap64] at hend
    omega

def oneBlock (fileid : ℤ) : BlockFile ℕ fourKiB where
  fileid := fileid
  size := 4096
  blocks := [⟨fileid, 0, 7⟩]
  size_lt := by decide
  sorted := List.pairwise_singleton _ _
  of_file := by simp
  on_grid := by simp

def oneBlockStart (fileid : ℤ) : (oneBlock fileid).Cursor := ⟨[], ⟨fileid, 0, 7⟩, [], rfl⟩

theorem equalLengths_oneBlock : EqualLengths (oneBlock 1) (oneBlock 2) := by
  intro a ha b hb _
  obtain rfl := List.mem_singleton.mp ha
  obtain rfl := List.mem_singleton.mp hb
  rfl

theorem compareExtents_sound_iff_oneBlock :
    (∃ st, compareExtents List.sum (oneBlockStart 1) (oneBlockStart 2) 4096 .init = some st ∧
      ∀ m ∈ st.log, (∃ run, RealMatch List.sum (oneBlock 1) (oneBlock 2) m run) ∧
        (oneBlockStart 2).block.bLoff ≤ m.soff.2 ∧
        m.eoff.2 < (oneBlockStart 2).block.bLoff + 4096) ↔
    ¬ (4096 = 0 ∧ (oneBlockStart 2).block.bLoff = 0) :=
  compareExtents_sound_iff List.sum (oneBlock 1) (oneBlock 2) (oneBlockStart 1) (oneBlockStart 2)
    4096 .init (by decide) rfl equalLengths_oneBlock

/-- No bytes are to be searched, and a match is recorded. -/
theorem compareExtents_records_outside :
    ¬ ∃ st, compareExtents List.sum (oneBlockStart 1) (oneBlockStart 2) 0 .init = some st ∧
      ∀ m ∈ st.log, (∃ run, RealMatch List.sum (oneBlock 1) (oneBlock 2) m run) ∧
        (oneBlockStart 2).block.bLoff ≤ m.soff.2 ∧
        m.eoff.2 < (oneBlockStart 2).block.bLoff + 0 := by
  rintro ⟨st, hrun, hall⟩
  obtain ⟨st', hrun', hlog⟩ := compareExtents_of_zero List.sum (oneBlockStart 1) (oneBlockStart 2)
    .init rfl equalLengths_oneBlock rfl
  obtain rfl := Option.some.inj (hrun.symm.trans hrun')
  obtain ⟨m, hm⟩ := List.exists_mem_of_ne_nil _ hlog
  exact absurd (hall m hm).2.2 (Nat.not_lt_zero _)

end Oans
