import Oans.FileDigest
import Oans.InterruptedScans

/-!
# Scans carried on under other options

A checkpoint records an offset and two checksums, but none of the options it was taken under. What
a scan adds behind the offset is what a scan of its own would add there; in front of it stand the
rows of the interrupted one.
-/

namespace Oans

open Savepoint Slice

variable {δ : Type*}

namespace Progress

def fed (p : Progress) : List UInt8 := p.fileCsum.flatMap Fed.raw

structure Alike (p q : Progress) : Prop where
  off : p.off = q.off
  fed : p.fed = q.fed

end Progress

theorem ScanEnv.Turn.no_blocks {ω : Type*} {env : ScanEnv δ ω} {content : ℕ → UInt8} {eof : Bool}
    {s t : LoopState δ ω} {emit : Rows δ} (h : env.Turn content eof s t emit)
    (hblock : env.options.doBlockHash = false) : emit.blocks = [] := by
  cases h with
  | hole => rfl
  | faked => rfl
  | read => simp [Hashing.turnRows, Hashing.bufferRows, Hashing.processed, hblock]

namespace Hashing

/-- The file hashed under other options; the block size is the hashfile's. -/
def under (job : Hashing δ) (o : Options) : Hashing δ :=
  { job with options := { o with blocksize := job.options.blocksize } }

variable {job : Hashing δ} {o : Options} {content : ℕ → UInt8} {p q : Progress} {off stop : ℕ}

@[simp] theorem under_self (job : Hashing δ) : job.under job.options = job := rfl

@[simp] theorem under_blocksize (job : Hashing δ) (o : Options) :
    (job.under o).blocksize = job.blocksize := rfl

@[simp] theorem under_filesize (job : Hashing δ) (o : Options) :
    (job.under o).filesize = job.filesize := rfl

@[simp] theorem under_fiemap (job : Hashing δ) (o : Options) :
    (job.under o).fiemap = job.fiemap := rfl

@[simp] theorem under_fakeLen (job : Hashing δ) (o : Options) :
    (job.under o).fakeLen = job.fakeLen := rfl

@[simp] theorem under_fakes (job : Hashing δ) (o : Options) (off : ℕ) :
    (job.under o).Fakes off ↔ job.Fakes off := Iff.rfl

/-- Whole blocks are consumed whole, with block hashing or without. -/
theorem consumes_of_dvd {eof : Bool} (h : eof = true ∨ job.blocksize ∣ stop - off) :
    job.consumes eof off stop = stop - off := by
  unfold consumes
  split_ifs with hall
  · rfl
  · exact Nat.div_mul_cancel (h.resolve_left fun heof => hall (Or.inl heof))

theorem consumes_under {eof : Bool}
    (h : o.doBlockHash = job.options.doBlockHash ∨ eof = true ∨ job.blocksize ∣ stop - off) :
    (job.under o).consumes eof off stop = job.consumes eof off stop := by
  rcases h with hblock | hall
  · simp only [consumes, under, hblock]
    rfl
  · rw [consumes_of_dvd hall]
    exact consumes_of_dvd hall

/-- From the block grid a full read ends there or at the end of the file, where blocks divide the
buffer. -/
theorem dvd_read {cap : ℕ} (hcap : job.IsReadCap off cap) (hbuf : job.blocksize ∣ READ_BUF_LEN)
    (hoff : job.blocksize ∣ off) (hin : off + min READ_BUF_LEN (cap - off) < job.filesize) :
    job.blocksize ∣ min READ_BUF_LEN (cap - off) := by
  rcases Nat.le_total READ_BUF_LEN (cap - off) with hle | hle
  · rwa [Nat.min_eq_left hle]
  · rw [Nat.min_eq_right hle] at hin ⊢
    have hlt := hcap.lt
    rcases hcap.stop with heq | ⟨hdvd, -⟩
    · omega
    · exact Nat.dvd_sub hdvd hoff

/-- From one place a scan under other options goes on alike if both hash blocks or neither does, or
if blocks divide the buffer and the place is on the block grid. -/
theorem stride_alike (h : p.Alike q) (hlt : p.off < job.filesize)
    (hsame : o.doBlockHash = job.options.doBlockHash ∨
      job.blocksize ∣ READ_BUF_LEN ∧ job.blocksize ∣ p.off) :
    ((job.under o).stride content p).1 = (job.stride content q).1 ∧
      ((job.under o).stride content p).2.1.Alike (job.stride content q).2.1 := by
  obtain ⟨hoff, hfed⟩ := h
  have hadd : ∀ new, (p.fileCsum ++ [new]).flatMap Fed.raw =
      (q.fileCsum ++ [new]).flatMap Fed.raw := fun new => by
    simpa [Progress.fed] using hfed
  by_cases hhole : job.fiemap.HoleBlock job.blocksize p.off
  · have hp := @stride_hole _ (job.under o) content p hhole
    have hq := @stride_hole _ job content q (hoff ▸ hhole)
    rw [hp, hq, ← hoff]
    exact ⟨rfl, rfl, hadd _⟩
  by_cases hfakes : job.Fakes p.off
  · have hp := @stride_faked _ (job.under o) content p hhole hfakes
    have hq := @stride_faked _ job content q (hoff ▸ hhole) (hoff ▸ hfakes)
    rw [hp, hq, ← hoff]
    exact ⟨rfl, rfl, hadd _⟩
  have hcap := Fiemap.nextHoleBlock_isReadCap job.blocksize_pos 0 hlt hhole
  generalize job.fiemap.nextHoleBlock job.blocksize job.filesize p.off 0 = cap at hcap
  obtain ⟨stop, hstop⟩ : ∃ stop, stop = p.off + min READ_BUF_LEN (cap - p.off) := ⟨_, rfl⟩
  have hp := @stride_read _ (job.under o) content p _ _ _ hlt hhole hfakes hcap hstop rfl
  have hq := @stride_read _ job content q _ _ _ (hoff ▸ hlt) (hoff ▸ hhole) (hoff ▸ hfakes)
    (hoff ▸ hcap) (hoff ▸ hstop) rfl
  have hconsumes := @consumes_under _ job o p.off stop (decide (job.filesize ≤ stop))
    (hsame.imp_right fun ⟨hbuf, hgrid⟩ => by
      rcases Nat.lt_or_ge stop job.filesize with hin | hge
      · have hdvd := dvd_read hcap hbuf hgrid (hstop ▸ hin)
        rw [hstop, Nat.add_sub_cancel_left]
        exact Or.inr hdvd
      · exact Or.inl (decide_eq_true hge))
  rw [under_filesize, hconsumes] at hp
  rw [hp, hq, ← hoff]
  exact ⟨rfl, rfl, hadd _⟩

/-- With block hashing, or where blocks divide the buffer, the loop stays on the block grid. -/
theorem dvd_stride (hoff : job.blocksize ∣ p.off) (hlt : p.off < job.filesize)
    (hgrid : job.options.doBlockHash = true ∨ job.blocksize ∣ READ_BUF_LEN)
    (hin : (job.stride content p).2.1.off < job.filesize) :
    job.blocksize ∣ (job.stride content p).2.1.off := by
  by_cases hhole : job.fiemap.HoleBlock job.blocksize p.off
  · rw [stride_hole hhole] at hin ⊢
    have hrun := (job.fiemap.holeRun_pos_iff job.blocksize_pos hlt).mpr hhole
    cases hnext : job.fiemap.nextExtent p.off with
    | none =>
      simp only [Fiemap.holeRun, hnext] at hin
      omega
    | some e => exact Fiemap.dvd_add_holeRun hnext hrun
  by_cases hfakes : job.Fakes p.off
  · rw [stride_faked hhole hfakes]
    exact Nat.dvd_add hoff job.dvd_fakeLen
  have hcap := Fiemap.nextHoleBlock_isReadCap job.blocksize_pos 0 hlt hhole
  rw [stride_read hlt hhole hfakes hcap rfl rfl] at hin ⊢
  refine Nat.dvd_add hoff ?_
  rcases Nat.lt_or_ge (p.off + min READ_BUF_LEN
    (job.fiemap.nextHoleBlock job.blocksize job.filesize p.off 0 - p.off)) job.filesize
    with hmore | hge
  · rcases hgrid with hblock | hbuf
    · rw [decide_eq_false (Nat.not_le.mpr hmore), consumes, if_neg (by simp [hblock])]
      exact Nat.dvd_mul_left _ _
    · have hdvd := dvd_read hcap hbuf hoff hmore
      rwa [consumes_of_dvd (Or.inr (by rwa [Nat.add_sub_cancel_left])), Nat.add_sub_cancel_left]
  · rw [decide_eq_true hge, consumes, if_pos (Or.inl rfl)] at hin
    dsimp only at hin
    omega

variable {rows : Rows δ} {cp : ScanCheckpoint} {t t' : Progress} {emitted emitted' : List (Rows δ)}

theorem Passes.dvd (h : job.Passes content p rows)
    (hgrid : job.options.doBlockHash = true ∨ job.blocksize ∣ READ_BUF_LEN)
    (hin : p.off < job.filesize) : job.blocksize ∣ p.off := by
  obtain ⟨emitted, hpath, -⟩ := h
  induction hpath with
  | refl => exact Nat.dvd_zero _
  | @snoc t u _ r _ hlt hstep ih =>
    have hnext := @dvd_stride _ job content t (ih hlt) hlt hgrid
    rw [hstep] at hnext
    exact hnext hin

/-- Where one scan of the file comes, one under other options comes as well. -/
theorem Passes.under (h : (job.under o).Passes content p rows)
    (hsame : o.doBlockHash = job.options.doBlockHash ∨ job.blocksize ∣ READ_BUF_LEN) :
    ∃ q rows', job.Passes content q rows' ∧ p.Alike q := by
  obtain ⟨emitted, hpath, -⟩ := h
  obtain ⟨q, emitted', hpath', halike, -⟩ := @Stepping.Path.simulate _ _ _ _ _ _ _ _ _ job.BelowEnd
    (job.stride content) (fun u u' => u.Alike u' ∧
      (job.blocksize ∣ READ_BUF_LEN → u.off < job.filesize → job.blocksize ∣ u.off)) .zero hpath
    ⟨⟨rfl, rfl⟩, fun _ _ => Nat.dvd_zero _⟩ (fun u u' hrel hlt => by rwa [BelowEnd, ← hrel.1.off])
    fun u u' hrel hlt => by
      obtain ⟨halike, hgrid⟩ := hrel
      obtain ⟨hflag, hnext⟩ := @stride_alike _ job o content u u' halike hlt
        (hsame.imp_right fun hbuf => ⟨hbuf, hgrid hbuf hlt⟩)
      exact ⟨hflag, hnext, fun hbuf hin =>
        @dvd_stride _ (job.under o) content u (hgrid hbuf hlt) hlt (Or.inr hbuf) hin⟩
  exact ⟨q, _, ⟨emitted', hpath', rfl⟩, halike⟩

/-- From alike places scans come to alike ends. -/
theorem ends_of_alike (h : p.Alike q)
    (heval : Stepping.Evaluates job.BelowEnd (job.stride content) p t emitted) :
    ∃ t' emitted', Stepping.Evaluates job.BelowEnd (job.stride content) q t' emitted' ∧
      t.Alike t' := by
  refine heval.simulate h (fun u u' hrel => by rw [BelowEnd, BelowEnd, hrel.off])
    fun u u' hrel hlt => @stride_alike _ job job.options content u u' hrel hlt (Or.inl rfl)

variable (job content) in
/-- The loop of a scan of its own comes to where the checkpoint was taken, with the same bytes in
the file checksum. -/
def Meets (cp : ScanCheckpoint) : Prop :=
  ∃ p rows, job.Passes content p rows ∧ cp.progress.Alike p

variable (job content) in
/-- Behind the checkpoint the file checksum goes on as in a scan of its own: the loop of that scan
comes there as well, or all ways through the file feed the same bytes. -/
def Carries (cp : ScanCheckpoint) : Prop :=
  job.Meets content cp ∨ job.Steady content ∧
    (job.options.doBlockHash = true → job.blocksize ∣ cp.loff)

theorem Meets.fed_eq (h : job.Meets content cp)
    (heval : Stepping.Evaluates job.BelowEnd (job.stride content) cp.progress t emitted)
    (heval' : Stepping.Evaluates job.BelowEnd (job.stride content) .zero t' emitted') :
    t.fed = t'.fed := by
  obtain ⟨p, rows, ⟨before, hpath, -⟩, halike⟩ := h
  obtain ⟨q, after, hrest, hend⟩ := ends_of_alike halike heval
  obtain ⟨rfl, -⟩ := (hpath.evaluates hrest).unique heval'
  exact hend.fed

theorem Carries.dvd (h : job.Carries content cp) (hblock : job.options.doBlockHash = true)
    (hin : cp.loff < job.filesize) : job.blocksize ∣ cp.loff := by
  rcases h with ⟨p, rows, hpasses, halike⟩ | ⟨-, hgrid⟩
  · have hoff : cp.loff = p.off := halike.off
    rw [hoff] at hin ⊢
    exact hpasses.dvd (Or.inl hblock) hin
  · exact hgrid hblock

/-- Extent rows stand for the records that end before `p`, and the digest in progress for the one
that goes on there; without extents there is neither. -/
theorem ScannedTo.extents (h : job.ScannedTo content p rows) (hin : p.off ≤ job.filesize)
    (hnew : job.options.oldHoleDigests = false) :
    (job.options.onlyWholeFiles = true → rows.extents = [] ∧ p.extentCsum = none) ∧
      (job.options.onlyWholeFiles = false →
        job.DigestAt content (fun _ => True) p.off p.extentCsum ∧
          job.RowsOf content (fun _ => True) 0 p.off rows.extents) := by
  refine @ScannedTo.invariant _ _ _ _ _ (fun p rows => p.off ≤ job.filesize →
    (job.options.onlyWholeFiles = true → rows.extents = [] ∧ p.extentCsum = none) ∧
      (job.options.onlyWholeFiles = false →
        job.DigestAt content (fun _ => True) p.off p.extentCsum ∧
          job.RowsOf content (fun _ => True) 0 p.off rows.extents)) h ?_ ?_ hin
  · exact fun _ => ⟨fun _ => ⟨rfl, rfl⟩, fun _ => ⟨.of_none_begun fun _ _ _ _ => Nat.zero_le _,
      .nil (closedIn_eq_nil fun _ _ h => h)⟩⟩
  · rintro scan s t rows emit rfl hsound hlt hturn hbefore hin
    obtain ⟨hwhole, hparts⟩ := hbefore hlt.le
    refine ⟨fun h => ?_, fun h => ?_⟩
    · obtain ⟨hemit, hcsum⟩ := hturn.whole h
      refine ⟨?_, hcsum.trans (hwhole h).2⟩
      change rows.extents ++ emit.extents = []
      rw [hemit, (hwhole h).1, List.append_nil]
    · obtain ⟨hdigest, hrows⟩ := hparts h
      obtain ⟨hdigest', hemit⟩ := hturn.extents h hin
        (fun _ hold => absurd (hold.symm.trans hnew) Bool.noConfusion) hdigest
      exact ⟨hdigest', hrows.append hemit (Nat.zero_le _) hturn.off_mono hin⟩

theorem ScannedTo.blocks (h : job.ScannedTo content p rows) (hin : p.off ≤ job.filesize) :
    rows.blocks = if job.options.doBlockHash then job.blocksIn content 0 (job.blockCount p.off)
      else [] := by
  refine @ScannedTo.invariant _ _ _ _ _ (fun p rows => p.off ≤ job.filesize →
    rows.blocks = if job.options.doBlockHash then job.blocksIn content 0 (job.blockCount p.off)
      else []) h ?_ ?_ hin
  · rw [show job.blockCount Progress.zero.off = 0 from
      Nat.eq_zero_of_not_pos fun hpos => absurd (lt_blockCount.mp hpos) (Nat.not_lt_zero _),
      blocksIn_self, ite_self]
    exact fun _ => rfl
  · rintro scan s t rows emit rfl hsound hlt hturn hbefore hin
    change rows.blocks ++ emit.blocks = _
    rw [hbefore hlt.le]
    cases hblock : scan.options.doBlockHash with
    | true =>
      rw [if_pos rfl, if_pos rfl, hturn.blocks hblock hsound hlt hin nofun]
      exact blocksIn_append (Nat.zero_le _) (blockCount_mono hturn.off_mono)
    | false =>
      rw [if_neg nofun, if_neg nofun, hturn.no_blocks hblock]
      rfl

theorem ScannedTo.way (h : job.ScannedTo content p rows) : job.Way content p.off p.fed := by
  refine @ScannedTo.invariant _ _ _ _ _ (fun p _ => job.Way content p.off p.fed) h .start ?_
  rintro scan s t rows emit rfl hsound hlt hturn hway
  exact hturn.way hsound hlt hway

def MakesRow (job : Hashing δ) (content : ℕ → UInt8) (k : ℕ) : Prop :=
  job.options.doBlockHash = true ∧ job.HasBlockRow content k

instance (job : Hashing δ) (content : ℕ → UInt8) (k : ℕ) : Decidable (job.MakesRow content k) :=
  inferInstanceAs (Decidable (_ ∧ _))

/-- What a scan under `o` has stored of the head of the file is what a scan of its own stores there:
the same blocks have rows, and unless both hash extents or neither does, no record ends there. -/
structure SameHead (job : Hashing δ) (o : Options) (content : ℕ → UInt8) (off : ℕ) : Prop where
  blocks : ∀ k, k * job.blocksize < off → ((job.under o).MakesRow content k ↔
    job.inlined = false ∧ job.MakesRow content k)
  extents : o.onlyWholeFiles = job.options.onlyWholeFiles ∨
    ∀ e ∈ job.dataExtents, off < job.closesAt e

def blockRowsOf (job : Hashing δ) (content : ℕ → UInt8) (P : ℕ → Prop) [DecidablePred P] (a b : ℕ) :
    List (BlockCsum δ) :=
  ((List.range' a (b - a)).filter fun k => decide (P k)).map (job.blockRow content)

theorem blockRowsOf_and (c : Bool) (a b : ℕ) :
    job.blockRowsOf content (fun k => c = true ∧ job.HasBlockRow content k) a b =
      if c then job.blocksIn content a b else [] := by
  unfold blockRowsOf blocksIn
  cases c with
  | true => simp
  | false => simp

theorem blockRowsOf_inj {P Q : ℕ → Prop} [DecidablePred P] [DecidablePred Q] {a b : ℕ} :
    job.blockRowsOf content P a b = job.blockRowsOf content Q a b ↔
      ∀ k, a ≤ k → k < b → (P k ↔ Q k) := by
  have hinj : Function.Injective (job.blockRow content) := fun k m h =>
    Nat.eq_of_mul_eq_mul_right job.blocksize_pos (congrArg BlockCsum.loff h)
  unfold blockRowsOf
  rw [(List.map_injective_iff.mpr hinj).eq_iff]
  constructor
  · intro h k hlo hhi
    have hmem := congrArg (k ∈ ·) h
    simpa [List.mem_filter, List.mem_range'_1, hlo, show k < a + (b - a) by omega] using hmem
  · intro h
    refine List.filter_congr fun k hk => ?_
    rw [List.mem_range'_1] at hk
    rw [decide_eq_decide]
    exact h k hk.1 (by omega)

/-- The head's block rows and those behind it are the rows a scan of its own stores exactly if the
same blocks of the head have rows. -/
theorem blocks_eq_iff {off : ℕ} (hin : off ≤ job.filesize) :
    (if o.doBlockHash then (job.under o).blocksIn content 0 (job.blockCount off) else []) ++
        (if !job.inlined && job.options.doBlockHash
          then job.blocksIn content (job.blockCount off) (job.blockCount job.filesize) else []) =
        (if !job.inlined && job.options.doBlockHash
          then job.blocksIn content 0 (job.blockCount job.filesize) else []) ↔
      ∀ k, k * job.blocksize < off → ((job.under o).MakesRow content k ↔
        job.inlined = false ∧ job.MakesRow content k) := by
  have hhead :
      (if o.doBlockHash then (job.under o).blocksIn content 0 (job.blockCount off) else []) =
      (if !job.inlined && job.options.doBlockHash
        then job.blocksIn content 0 (job.blockCount off) else []) ↔
      ∀ k, k * job.blocksize < off → ((job.under o).MakesRow content k ↔
        job.inlined = false ∧ job.MakesRow content k) := by
    rw [← blockRowsOf_and, ← blockRowsOf_and]
    refine blockRowsOf_inj.trans (forall_congr' fun k => ?_)
    simp only [Nat.zero_le, lt_blockCount, true_implies, MakesRow, Bool.and_eq_true,
      Bool.not_eq_true', and_assoc]
    rfl
  rw [← hhead]
  cases !job.inlined && job.options.doBlockHash with
  | false => simp only [Bool.false_eq_true, if_false, List.append_nil]
  | true =>
    rw [if_pos rfl, if_pos rfl, if_pos rfl,
      ← blocksIn_append (Nat.zero_le _) (blockCount_mono hin), List.append_left_inj]

theorem extents_eq_iff {off : ℕ} (hin : off ≤ job.filesize) :
    (if o.onlyWholeFiles then [] else (job.closedIn 0 off).map (job.extentRow content)) ++
        (if job.options.onlyWholeFiles then []
          else (job.closedIn off job.filesize).map (job.extentRow content)) =
        (if job.options.onlyWholeFiles then [] else job.dataExtents.map (job.extentRow content)) ↔
      o.onlyWholeFiles = job.options.onlyWholeFiles ∨
        ∀ e ∈ job.dataExtents, off < job.closesAt e := by
  have hnil : job.closedIn 0 off = [] ↔ ∀ e ∈ job.dataExtents, off < job.closesAt e := by
    refine List.filter_eq_nil_iff.trans (forall₂_congr fun e he => ?_)
    have := lt_closesAt he
    simp only [decide_eq_true_eq]
    omega
  rw [← hnil, ← closedIn_file, ← closedIn_append job (Nat.zero_le _) hin, List.map_append]
  cases o.onlyWholeFiles <;> cases job.options.onlyWholeFiles <;> simp

/-- Where no digest is in progress, an adopted checkpoint lies inside no record without skip
flags. -/
theorem digestAt_of_adopt {clean : FiemapExtent → Prop} (hadopt : job.adoptResume cp = true)
    (hnone : cp.extState = none) (hextents : job.options.onlyWholeFiles = false) :
    job.DigestAt content clean cp.loff none := by
  refine .of_none_begun fun _ e he hdata => ?_
  have hget := job.fiemap.getExtent_fst cp.loff 0
  unfold adoptResume at hadopt
  rw [hnone, hget, he] at hadopt
  split_ifs at hadopt
  simpa [hextents, hdata] using hadopt

end Hashing

namespace ScanEnv

variable {ω : Type*} {env : ScanEnv δ ω} {content : ℕ → UInt8} {s t : LoopState δ ω} {rows : Rows δ}

theorem startState_adopted {cp : ScanCheckpoint} (husable : env.resumeUsable cp = true)
    (hadopt : env.adoptResume cp = true) (w : ω) :
    (env.startState (some cp) w).progress = cp.progress := by
  rw [startState, if_pos (Bool.and_eq_true_iff.mpr ⟨husable, hadopt⟩)]
  rfl

/-- What the rows of all turns have, the rows of the loop have. -/
theorem Finishes.closed {P : Rows δ → Prop} (h : env.Finishes content s t rows) (hnil : P ∅)
    (happend : ∀ a b, P a → P b → P (a ++ b))
    (hturn : ∀ eof u v emit, env.Turn content eof u v emit → P emit) : P rows := by
  have hmakes : ∀ u rows, env.Makes content s u rows → P rows := fun u rows h => by
    induction h with
    | refl => exact hnil
    | turn _ _ hpass ih => exact happend _ _ ih (hturn _ _ _ _ hpass)
  cases h with
  | done head => exact hmakes _ _ head
  | last head _ hpass => exact happend _ _ (hmakes _ _ head) (hturn _ _ _ _ hpass)

theorem Finishes.no_blocks (h : env.Finishes content s t rows)
    (hblock : env.options.doBlockHash = false) : rows.blocks = [] := by
  refine @Finishes.closed _ _ _ _ _ _ _ (fun rows => rows.blocks = []) h rfl (fun a b ha hb => ?_)
    fun _ _ _ _ hturn => hturn.no_blocks hblock
  change a.blocks ++ b.blocks = []
  rw [ha, hb, List.append_nil]

theorem Finishes.no_extents (h : env.Finishes content s t rows)
    (hwhole : env.options.onlyWholeFiles = true) : rows.extents = [] := by
  refine @Finishes.closed _ _ _ _ _ _ _ (fun rows => rows.extents = []) h rfl (fun a b ha hb => ?_)
    fun _ _ _ _ hturn => (hturn.whole hwhole).1
  change a.extents ++ b.extents = []
  rw [ha, hb, List.append_nil]

/-- The extent rows and block rows of a scan that starts at `s` and comes to the end of the file. -/
theorem Finishes.rows_eq (h : env.Finishes content s t rows) (hend : t.ctxt.off = env.filesize)
    (hsound : env.Sound content s.ctxt s.buffer) (hnew : env.options.oldHoleDigests = false)
    (hdigest : env.options.onlyWholeFiles = false →
      env.DigestAt content (fun _ => True) s.ctxt.off s.ctxt.extentCsum) :
    (rows.extents = if env.options.onlyWholeFiles then []
      else (env.closedIn s.ctxt.off env.filesize).map (env.extentRow content)) ∧
    rows.blocks = if env.options.doBlockHash then env.blocksIn content (env.blockCount s.ctxt.off)
      (env.blockCount env.filesize) else [] := by
  constructor
  · cases hwhole : env.options.onlyWholeFiles with
    | true => rw [if_pos rfl, h.no_extents hwhole]
    | false =>
      have hrows := h.extents hwhole (runLeavesGaps_of_new hnew) (hdigest hwhole) hend.le
      rw [hend] at hrows
      rw [if_neg nofun, Hashing.rows_eq_of_rowOf (hrows.exact hnew)]
  · cases hblock : env.options.doBlockHash with
    | true => rw [if_pos rfl, h.blocks hblock hsound hend]
    | false => rw [if_neg nofun, h.no_blocks hblock]

end ScanEnv

structure FileHashes.SameResults (f g : FileHashes δ) : Prop where
  digest : f.scanned.map ScannedFile.digest = g.scanned.map ScannedFile.digest
  extents : f.extents = g.extents
  blocks : f.blocks = g.blocks

def FileHashes.copyScannedFile (donor : FileHashes δ) (flags : ℕ) : FileHashes δ where
  blocks := donor.blocks
  extents := donor.extents
  checkpoint := none
  scanned := donor.scanned.map fun row => { row with flags := flags }

theorem FileHashes.sameResults_copy {f g : FileHashes δ} (flags : ℕ) :
    (f.copyScannedFile flags).SameResults (g.copyScannedFile flags) ↔ f.SameResults g := by
  have hdigest : ∀ h : FileHashes δ, (h.copyScannedFile flags).scanned.map ScannedFile.digest =
      h.scanned.map ScannedFile.digest := fun h => by
    rw [copyScannedFile, Option.map_map]
    rfl
  constructor
  · rintro ⟨hsame, hextents, hblocks⟩
    exact ⟨by rwa [hdigest, hdigest] at hsame, hextents, hblocks⟩
  · rintro ⟨hsame, hextents, hblocks⟩
    exact ⟨by rwa [hdigest, hdigest], hextents, hblocks⟩

namespace FileScan

variable {scan clean : FileScan δ} {content : ℕ → UInt8} {f : FileHashes δ} {o : Options}
  {cp : ScanCheckpoint} {w w' v v' : ScanWriter (FileHashes δ)} {fuel fuel' : ℕ}

theorem prepare_of_adopted (hcp : f.checkpoint = some cp) (husable : scan.resumeUsable cp = true)
    (hadopt : scan.adoptResume cp = true) : scan.prepare f = f.removeHashesFrom cp.loff := by
  unfold Hashing.prepare Hashing.resumeScan
  rw [hcp]
  dsimp only
  rw [if_pos husable]
  dsimp only
  rw [if_pos hadopt]

/-- What a scan stores that adopts the checkpoint of one under other options: the rows of the head
are those of the interrupted run, and the others those of a scan of its own. -/
theorem stored_of_adopted (hfull : scan.env.ReadsFully content)
    (hleft : (scan.under o).Leaves content f) (hold : o.oldHoleDigests = false)
    (hnew : scan.options.oldHoleDigests = false) (hcp : f.checkpoint = some cp)
    (husable : scan.resumeUsable cp = true) (hadopt : scan.adoptResume cp = true)
    (hcarries : scan.Carries content cp) (hidle : w.Idle) (hview : w.view = scan.prepare f)
    (hrun : scan.csumWholeFile fuel f.checkpoint w = some (.stored w'))
    (hwrites : ScanWriter.Fails scan.io → ¬ w'.Harmed) :
    ∃ t emitted, Stepping.Evaluates scan.BelowEnd (scan.stride content) cp.progress t emitted ∧
      scan.Way content scan.filesize t.fed ∧
      w'.view.scanned.map ScannedFile.digest = some (scan.xxh t.fed) ∧
      w'.view.extents =
        (if o.onlyWholeFiles then [] else (scan.closedIn 0 cp.loff).map (scan.extentRow content)) ++
          (if scan.options.onlyWholeFiles then []
            else (scan.closedIn cp.loff scan.filesize).map (scan.extentRow content)) ∧
      w'.view.blocks =
        (if o.doBlockHash then (scan.under o).blocksIn content 0 (scan.blockCount cp.loff)
          else []) ++
          (if !scan.inlined && scan.options.doBlockHash then scan.blocksIn content
            (scan.blockCount cp.loff) (scan.blockCount scan.filesize) else []) := by
  obtain ⟨base, hscanned, -, hrows⟩ := (resumable_of_leaves hleft).removeHashesFrom hcp
  have hfits := of_decide_eq_true husable
  have hin : cp.loff < scan.filesize := hfits.2.2.2
  have hprep := (prepare_of_adopted hcp husable hadopt).trans hrows
  have hstart : (scan.env.startState f.checkpoint w).progress = cp.progress := by
    rw [hcp]
    exact ScanEnv.startState_adopted husable hadopt w
  have hoff : (scan.env.startState f.checkpoint w).ctxt.off = cp.loff :=
    congrArg Progress.off hstart
  have hsound : scan.env.Sound content (scan.env.startState f.checkpoint w).ctxt
      (scan.env.startState f.checkpoint w).buffer :=
    ScanEnv.sound_of_unread (scan.env.startState_unread _ w) fun hblock _ =>
      hoff ▸ hcarries.dvd hblock hin
  have hrec : w.Records base.blocks base .empty := by
    refine ⟨hidle, ?_, ?_, ?_, fun _ => ?_⟩ <;> rw [hview, hprep]
    · exact List.append_nil _
    · exact List.append_nil _
  have hbelow : ScanEnv.BlocksBelow (scan.env.startState f.checkpoint w).ctxt.off base.blocks := by
    rw [hoff]
    exact hscanned.blocksBelow
  rcases stored_of_start hfull.reads hsound hrec hbelow hrun with
    ⟨r, rows, hfinishes, hend, hext, hblk, hinl, hscan⟩ | ⟨hfails, hharm⟩
  swap
  · exact absurd hharm (hwrites hfails)
  obtain ⟨hwhole, hparts⟩ := hscanned.extents hin.le hold
  have hheadBlocks := hscanned.blocks hin.le
  have hcsum : (scan.env.startState f.checkpoint w).ctxt.extentCsum =
      cp.extState.map fun ext => ext.2.2 := congrArg Progress.extentCsum hstart
  have hdigest : scan.env.options.onlyWholeFiles = false → scan.env.DigestAt content (fun _ => True)
      (scan.env.startState f.checkpoint w).ctxt.off
      (scan.env.startState f.checkpoint w).ctxt.extentCsum := by
    intro hextents
    rw [hoff, hcsum]
    cases ho : o.onlyWholeFiles with
    | true =>
      have hnone := (hwhole ho).2
      rw [show (cp.extState.map fun ext => ext.2.2) = none from hnone]
      exact Hashing.digestAt_of_adopt hadopt (Option.map_eq_none_iff.mp hnone) hextents
    | false =>
      obtain ⟨hdigest, -⟩ := hparts ho
      exact ⟨hdigest.outside, hdigest.inside⟩
  have hheadExtents : base.extents = if o.onlyWholeFiles then []
      else (scan.closedIn 0 cp.loff).map (scan.extentRow content) := by
    cases ho : o.onlyWholeFiles with
    | true => exact (hwhole ho).1
    | false =>
      have hrows := Hashing.rows_eq_of_rowOf ((hparts ho).2.exact hold)
      exact hrows
  obtain ⟨htailExtents, htailBlocks⟩ := hfinishes.rows_eq hend hsound hnew hdigest
  obtain ⟨emitted, heval, -⟩ := hfinishes.strides hfull hsound
  rw [hstart] at heval
  have hway : scan.env.Way content (scan.env.startState f.checkpoint w).ctxt.off
      (scan.env.startState f.checkpoint w).fed := by
    have hway : scan.Way content cp.loff cp.progress.fed := hscanned.way.congr rfl rfl
    rw [hoff, show (scan.env.startState f.checkpoint w).fed = cp.progress.fed from
      congrArg Progress.fed hstart]
    exact hway
  refine ⟨r.progress, emitted, heval, hend ▸ hfinishes.way hsound hway, ?_, ?_, ?_⟩
  · rw [hscan]
    rfl
  · rw [hext, ← hheadExtents]
    change base.extents ++ rows.extents = _
    rw [htailExtents, hoff]
    rfl
  · cases hinlined : scan.inlined with
    | true =>
      rw [hinl hinlined, hheadBlocks]
      exact (List.append_nil _).symm
    | false =>
      rw [hblk hinlined]
      change base.blocks ++ rows.blocks = _
      rw [htailBlocks, hheadBlocks, hoff]
      rfl

theorem stored_of_scratch (hfull : scan.env.ReadsFully content)
    (hnew : scan.options.oldHoleDigests = false) (hidle : w.Idle) (hview : w.view = .empty)
    (hrun : scan.csumWholeFile fuel none w = some (.stored w'))
    (hwrites : ScanWriter.Fails scan.io → ¬ w'.Harmed) :
    ∃ t emitted, Stepping.Evaluates scan.BelowEnd (scan.stride content) .zero t emitted ∧
      scan.Way content scan.filesize t.fed ∧
      w'.view.scanned.map ScannedFile.digest = some (scan.xxh t.fed) ∧
      w'.view.extents = (if scan.options.onlyWholeFiles then []
        else scan.dataExtents.map (scan.extentRow content)) ∧
      w'.view.blocks = (if !scan.inlined && scan.options.doBlockHash
        then scan.blocksIn content 0 (scan.blockCount scan.filesize) else []) := by
  have hsound := scan.env.freshState_sound content w
  rcases stored_of_fresh hfull.reads hidle hview hrun with
    ⟨r, rows, hfinishes, hend, hext, hblk, hinl, hscan⟩ | ⟨hfails, hharm⟩
  swap
  · exact absurd hharm (hwrites hfails)
  obtain ⟨hextents, hblocks⟩ := hfinishes.rows_eq hend hsound hnew fun _ =>
    .of_none_begun fun _ _ _ _ => Nat.zero_le _
  obtain ⟨emitted, heval, -⟩ := hfinishes.strides hfull hsound
  have hzero : scan.blockCount 0 = 0 := Nat.eq_zero_of_not_pos fun hpos =>
    absurd (Hashing.lt_blockCount.mp hpos) (Nat.not_lt_zero _)
  refine ⟨r.progress, emitted, heval, hend ▸ hfinishes.way hsound .start, ?_, ?_, ?_⟩
  · rw [hscan]
    rfl
  · rw [hext, hextents, ← Hashing.closedIn_file]
    rfl
  · cases hinlined : scan.inlined with
    | true => exact hinl hinlined
    | false =>
      rw [hblk hinlined, hblocks]
      change (if _ then scan.blocksIn content (scan.blockCount 0) _ else _) = _
      rw [hzero]
      rfl

/-- Unless one of them hashes blocks, the other does not and blocks do not divide the buffer, the
file checksum goes on as in a scan of its own. -/
theorem carries_of_leaves (hleft : (scan.under o).Leaves content f) (hcp : f.checkpoint = some cp)
    (hsame : o.doBlockHash = scan.options.doBlockHash ∨ scan.blocksize ∣ READ_BUF_LEN) :
    scan.Carries content cp := by
  obtain ⟨base, -, hpasses, -⟩ := (resumable_of_leaves hleft).base cp hcp
  obtain ⟨q, rows, hq, halike⟩ := hpasses.under hsame
  exact Or.inl ⟨q, rows, hq, halike⟩

end FileScan

def writtenContent (p : ℕ) : UInt8 := if p / 4096 = 1 then 0 else 1

def writtenScan (skipZeroes interrupted : Bool) : FileScan ℕ :=
  { tailedScan FIEMAP_EXTENT_LAST interrupted with
    options := ⟨fourKiB, true, skipZeroes, false, false⟩
    pread := fullReads writtenContent }

theorem writtenScan_readsFully (skipZeroes interrupted : Bool) :
    (writtenScan skipZeroes interrupted).env.ReadsFully writtenContent := by
  refine ⟨fun pos want data h => ?_, fun _ _ _ => rfl⟩
  obtain rfl := Option.some.inj h
  simp

def writtenLeft : FileHashes ℕ :=
  (((writtenScan true true).env.csumPass ((writtenScan true true).env.startState none
    (.opened .empty))).state.map fun u => u.world.conn.durable).getD .empty

set_option maxRecDepth 20000 in
theorem writtenScan_interrupts : ∃ u, ((writtenScan true true).env.csumPass
    ((writtenScan true true).env.startState none (.opened .empty))).state = some u := ⟨_, rfl⟩

theorem writtenLeft_leaves : (writtenScan true true).Leaves writtenContent writtenLeft := by
  obtain ⟨u, hu⟩ := writtenScan_interrupts
  have hleft : writtenLeft = u.world.conn.durable := by
    rw [writtenLeft, hu]
    rfl
  rw [hleft]
  refine @Hashing.Leaves.interrupted _ _ _ _ _ (writtenScan true true) _ _ _ .fresh rfl
    (writtenScan_readsFully true true) (ScanWriter.opened_idle _) rfl (fun g hg => ?_) .refl ?_ hu
    (fun h => absurd h quietIO_not_fails) (Or.inl List.mem_cons_self)
  · rw [List.mem_singleton.mp hg]
    exact .fresh
  · change 0 < 8292
    decide

set_option maxRecDepth 20000 in
theorem writtenScan_sameHead : (writtenScan false false).SameHead
    ⟨fourKiB, true, true, false, false⟩ writtenContent 4096 where
  blocks k hk := by
    have hbs : (writtenScan false false).blocksize = 4096 := rfl
    obtain rfl : k = 0 := by
      rw [hbs] at hk
      omega
    decide
  extents := Or.inl rfl

set_option maxRecDepth 20000 in
theorem writtenLeft_checkpoint : ∃ cp, writtenLeft.checkpoint = some cp ∧ cp.loff = 4096 ∧
    (writtenScan false false).resumeUsable cp = true ∧
    (writtenScan false false).adoptResume cp = true := ⟨_, rfl, rfl, rfl, rfl⟩

set_option maxRecDepth 20000 in
theorem writtenScan_resumes : ∃ w', (writtenScan false false).csumWholeFile 4
    writtenLeft.checkpoint (.opened ((writtenScan false false).prepare writtenLeft)) =
      some (.stored w') := ⟨_, rfl⟩

set_option maxRecDepth 20000 in
theorem writtenScan_stores : ∃ v', (writtenScan false false).csumWholeFile 4 none
    (.opened .empty) = some (.stored v') := ⟨_, rfl⟩

end Oans
