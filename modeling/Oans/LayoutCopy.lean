import Oans.LayoutKey
import Oans.SlotTables

/-!
# Results copied from a file with the same layout

A worker that finds a file of this run with the same key takes over its results if the rows it has
stored still list every record. What is copied is what hashing the file would have stored, in
whatever order the workers hash files or carry on with them, offer them, look them up and copy, and
whichever results are lost in between.
-/

namespace Oans

abbrev Digest := Vector UInt8 DIGEST_LEN

def LAYOUT_COPY_MIN_SIZE : ℕ := READ_BUF_LEN

variable {δ : Type*}

/-- What dedupe reads of a file. -/
def FileHashes.results (f : FileHashes δ) :
    List (BlockCsum δ) × List (ExtentCsum δ) × Option (ScannedFile δ) :=
  (f.blocks, f.extents, f.scanned)

namespace FileScan

/-- `layout_copy_wanted()` and `fiemap_layout_key()`, where the donors are in use. -/
def layoutKey (scan : FileScan δ) : Option δ :=
  if LAYOUT_COPY_MIN_SIZE ≤ scan.filesize then
    fiemapLayoutKey scan.xxh scan.fiemap scan.filesize
  else none

def copyFlags (scan : FileScan δ) : ℕ :=
  FILE_SCAN_CHECKED ||| (if scan.rdonlySubvol then fileRoSubvol else 0)

/-- What a scan from the start of the file stores, with all the rows it has made. -/
def Hashed (scan : FileScan δ) (f : FileHashes δ) : Prop :=
  ∃ fuel w w', w.Idle ∧ w.view = FileHashes.empty ∧
    scan.csumWholeFile fuel none w = some (.stored w') ∧
    (ScanWriter.Fails scan.io → ¬ w'.Harmed) ∧ w'.view = f

/-- What a scan of the file stores that finds `l` in the hashfile, with all the rows it has made. -/
def Finished (scan : FileScan δ) (l f : FileHashes δ) : Prop :=
  ∃ fuel w w', w.Idle ∧ w.view = scan.prepare l ∧
    scan.csumWholeFile fuel l.checkpoint w = some (.stored w') ∧
    (ScanWriter.Fails scan.io → ¬ w'.Harmed) ∧ w'.view = f

/-- The results of the file as its map, its bytes and the options determine them. Block rows that a
checkpoint of an inlined file holds stay. -/
def Stores (scan : FileScan δ) (content : ℕ → UInt8) (l f : FileHashes δ) : Prop :=
  ∃ t emitted, Stepping.Evaluates scan.BelowEnd (scan.stride content) .zero t emitted ∧
    f.scanned = some (scan.scannedFile t.fileCsum) ∧
    f.extents = (if scan.options.onlyWholeFiles then []
      else scan.dataExtents.map (scan.extentRow content)) ∧
    f.blocks = if scan.inlined then (scan.prepare l).blocks
      else if scan.options.doBlockHash then scan.blocksIn content 0 (scan.blockCount scan.filesize)
      else []

end FileScan

/-- The bytes of a file are those at the addresses its records give, and 0 where it has none. -/
structure Backed (disk : ℕ → UInt8) (fm : Fiemap) (size : ℕ) (content : ℕ → UInt8) : Prop where
  record : ∀ e ∈ fm.fmExtents, e.hasFlags LAYOUT_REJECT_FLAGS = false → e.unwritten = false →
    ∀ p < size, e.Holds p → content p = disk (e.fePhysical + (p - e.feLogical))
  hole : ∀ p < size, fm.Hole p → content p = 0

theorem mem_masked {fm : Fiemap} {e : FiemapExtent} (he : e ∈ fm.fmExtents) :
    e.masked ∈ fm.masked.fmExtents := List.mem_map_of_mem he

theorem FiemapExtent.unwritten_of_skipped {e : FiemapExtent} (h : e.skipped = false) :
    e.unwritten = false := by
  rw [skipped_eq_or, Bool.or_eq_false_iff] at h
  exact h.2

theorem Backed.content_eq {disk : ℕ → UInt8} {fm fm' : Fiemap} {size p : ℕ}
    {content content' : ℕ → UInt8} (h : Backed disk fm size content)
    (h' : Backed disk fm' size content') (hmasked : fm.masked = fm'.masked)
    (hreject : ∀ e ∈ fm.fmExtents, e.hasFlags LAYOUT_REJECT_FLAGS = false)
    (hreject' : ∀ e ∈ fm'.fmExtents, e.hasFlags LAYOUT_REJECT_FLAGS = false)
    (hdata : ∀ e ∈ fm.fmExtents, e.skipped = false) (hp : p < size) :
    content p = content' p := by
  by_cases hhole : fm.Hole p
  · have hhole' : fm'.Hole p := by
      intro e' he' hholds
      have hmem := mem_masked he'
      rw [← hmasked] at hmem
      obtain ⟨e, he, heq⟩ := List.mem_map.mp hmem
      have hholds' : e'.masked.Holds p := hholds
      rw [← heq] at hholds'
      exact hhole e he hholds'
    rw [h.hole p hp hhole, h'.hole p hp hhole']
  · obtain ⟨e, he, hholds⟩ : ∃ e ∈ fm.fmExtents, e.Holds p := by
      simpa [Fiemap.Hole] using hhole
    have hmem := mem_masked he
    rw [hmasked] at hmem
    obtain ⟨e', he', heq⟩ := List.mem_map.mp hmem
    have hholds' : e.masked.Holds p := hholds
    rw [← heq] at hholds'
    have hdata' : e'.skipped = false := by
      rw [← FiemapExtent.masked_skipped, heq, FiemapExtent.masked_skipped]
      exact hdata e he
    rw [h.record e he (hreject e he) (FiemapExtent.unwritten_of_skipped (hdata e he)) p hp hholds,
      h'.record e' he' (hreject' e' he') (FiemapExtent.unwritten_of_skipped hdata') p hp hholds',
      show e.fePhysical = e'.fePhysical from (congrArg FiemapExtent.fePhysical heq).symm,
      show e.feLogical = e'.feLogical from (congrArg FiemapExtent.feLogical heq).symm]

theorem ScanEnv.Finishes.off_mono {ω : Type*} {env : ScanEnv δ ω} {content : ℕ → UInt8}
    {s t : LoopState δ ω} {rows : Rows δ} (h : env.Finishes content s t rows) :
    s.ctxt.off ≤ t.ctxt.off := by
  cases h with
  | done head _ => exact head.off_mono
  | last head _ hturn => exact head.off_mono.trans hturn.off_mono

namespace FileScan

variable {scan scan' : FileScan δ} {content content' : ℕ → UInt8} {f g : FileHashes δ}

theorem inline_of_reject {e : FiemapExtent} (h : e.hasFlags LAYOUT_REJECT_FLAGS = false) :
    e.inline = false := by
  have hsub : LAYOUT_REJECT_FLAGS &&& FIEMAP_EXTENT_DATA_INLINE = FIEMAP_EXTENT_DATA_INLINE := by
    decide
  rw [FiemapExtent.hasFlags, bne_eq_false_iff_eq] at h
  rw [FiemapExtent.inline, FiemapExtent.hasFlags, bne_eq_false_iff_eq, ← hsub, ← UInt32.and_assoc,
    h, UInt32.zero_and]

theorem not_inlined_of_reject
    (h : ∀ e ∈ scan.fiemap.fmExtents, e.hasFlags LAYOUT_REJECT_FLAGS = false) :
    scan.inlined = false := by
  rw [Hashing.inlined, Fiemap.getExtent_fst]
  cases hnext : scan.fiemap.nextExtent (scan.filesize - 1) with
  | none => rfl
  | some e => exact inline_of_reject (h e (Fiemap.nextExtent_mem hnext))

/-- What a scan stores that carries on from what interrupted ones have left. -/
theorem Finished.stores {l : FileHashes δ} (hf : scan.Finished l f) (hl : scan.Leaves content l)
    (hfull : scan.env.ReadsFully content) (hnew : scan.options.oldHoleDigests = false) :
    scan.Stores content l f := by
  obtain ⟨fuel, w, w', hidle, hview, hrun, hwrites, rfl⟩ := hf
  have hresumable := resumable_of_leaves hl
  obtain ⟨base, hscanned, hpasses, hblocks, hextents, -⟩ :=
    @Hashing.Resumable.start _ _ _ _ scan.env hresumable w
  have hrec := records_of_prepare hidle hview hresumable hblocks hextents
  have hsound := Hashing.ScannedTo.sound scan.env hscanned (scan.env.startState_unread _ w)
  rcases stored_of_start hfull.reads hsound hrec hscanned.blocksBelow hrun with
    ⟨r, rows, hfinishes, hend, hext, hblk, hin, hfile⟩ | ⟨hfails, hharm⟩
  swap
  · exact absurd hharm (hwrites hfails)
  obtain ⟨emitted, heval, -⟩ := hfinishes.completes hfull hsound hpasses
  have hoff : (scan.env.startState l.checkpoint w).ctxt.off ≤ scan.env.filesize :=
    hfinishes.off_mono.trans hend.le
  obtain ⟨hwhole, hparts⟩ := hscanned.extents hoff hnew
  have hheadBlocks := hscanned.blocks hoff
  obtain ⟨htailExtents, htailBlocks⟩ :=
    hfinishes.rows_eq hend hsound hnew fun hextents => (hparts hextents).1
  refine ⟨r.progress, emitted, heval, hfile, ?_, ?_⟩
  · change w'.view.extents = if scan.env.options.onlyWholeFiles then []
      else scan.env.dataExtents.map (scan.env.extentRow content)
    rw [hext]
    change base.extents ++ rows.extents = _
    rw [htailExtents]
    cases ho : scan.env.options.onlyWholeFiles with
    | true => rw [if_pos rfl, if_pos rfl, (hwhole ho).1, List.append_nil]
    | false =>
      rw [if_neg Bool.false_ne_true, if_neg Bool.false_ne_true,
        Hashing.rows_eq_of_rowOf ((hparts ho).2.exact hnew), ← scan.env.closedIn_file,
        ← scan.env.closedIn_append (Nat.zero_le _) hoff, List.map_append]
      rfl
  · cases hinlined : scan.inlined with
    | true => rw [if_pos rfl, hin hinlined]; exact hblocks.symm
    | false =>
      rw [if_neg Bool.false_ne_true, hblk hinlined]
      change base.blocks ++ rows.blocks = if scan.env.options.doBlockHash then
        scan.env.blocksIn content 0 (scan.env.blockCount scan.env.filesize) else []
      rw [htailBlocks, hheadBlocks]
      cases hblock : scan.env.options.doBlockHash with
      | true =>
        rw [if_pos rfl, if_pos rfl, if_pos rfl]
        exact Hashing.blocksIn_append (Nat.zero_le _) (Hashing.blockCount_mono hoff)
      | false => simp

/-- Nothing is left of a file before its first scan. -/
theorem Hashed.stores (hf : scan.Hashed f) (hfull : scan.env.ReadsFully content)
    (hnew : scan.options.oldHoleDigests = false) : scan.Stores content .empty f :=
  Finished.stores (l := FileHashes.empty) hf .fresh hfull hnew

theorem Stores.congr {l : FileHashes δ} (h : scan.Stores content l f)
    (hsame : f.results = g.results) : scan.Stores content l g := by
  obtain ⟨t, emitted, heval, hscanned, hextents, hblocks⟩ := h
  simp only [FileHashes.results, Prod.mk.injEq] at hsame
  obtain ⟨hb, he, hs⟩ := hsame
  exact ⟨t, emitted, heval, hs ▸ hscanned, he ▸ hextents, hb ▸ hblocks⟩

/-- Whatever was left, the digest and the extent rows are the same, and the block rows unless a
checkpoint of an inlined file holds some. -/
theorem Stores.eq {l : FileHashes δ} (hf : scan.Stores content l f)
    (hg : scan.Stores content .empty g) : f.scanned = g.scanned ∧ f.extents = g.extents ∧
      (scan.inlined = false ∨ (scan.prepare l).blocks = [] → f.blocks = g.blocks) := by
  obtain ⟨t, emitted, heval, hscanned, hextents, hblocks⟩ := hf
  obtain ⟨t', emitted', heval', hscanned', hextents', hblocks'⟩ := hg
  obtain ⟨rfl, -⟩ := heval.unique heval'
  refine ⟨hscanned.trans hscanned'.symm, hextents.trans hextents'.symm, fun hclean => ?_⟩
  rw [hblocks, hblocks']
  rcases hclean with hinlined | hnone
  · rw [hinlined, if_neg Bool.false_ne_true, if_neg Bool.false_ne_true]
  · rw [hnone]
    rfl

/-- Results that are copied between files with one layout are those of the file they come to. -/
theorem Stores.copy {l l' : FileHashes δ} (hlayout : scan.SameLayout scan'.toHashing)
    (hcontent : ∀ p < scan.filesize, content p = content' p) (hinlined : scan.inlined = false)
    (hf : scan.Stores content l f) :
    scan'.Stores content' l' (f.copyScannedFile scan'.copyFlags) := by
  obtain ⟨t, emitted, heval, hscanned, hextents, hblocks⟩ := hf
  obtain ⟨t', emitted', heval', hfed⟩ := hlayout.evaluates hcontent heval
  have hlength : scan.fiemap.fmExtents.length = scan'.fiemap.fmExtents.length := by
    simpa [Fiemap.masked] using congrArg (fun fm => fm.fmExtents.length) hlayout.fiemap
  have hcount : scan.blockCount scan.filesize = scan'.blockCount scan'.filesize := by
    rw [Hashing.blockCount, Hashing.blockCount, hlayout.blocksize, hlayout.filesize]
  have hinlined' : scan'.inlined = false := hlayout.inlined ▸ hinlined
  refine ⟨t', emitted', heval', ?_, ?_, ?_⟩
  · have hdigest : scan.fileDigest t.fileCsum = scan'.fileDigest t'.fileCsum := by
      change scan.xxh t.fed = scan'.xxh t'.fed
      rw [hlayout.xxh, hfed]
    rw [FileHashes.copyScannedFile, hscanned, Option.map_some, scannedFile, scannedFile, hdigest,
      hlength, hinlined']
    rfl
  · rw [FileHashes.copyScannedFile]
    dsimp only
    rw [hextents, hlayout.options, hlayout.extentRows hcontent]
  · rw [FileHashes.copyScannedFile]
    dsimp only
    rw [hblocks, hinlined, hinlined', if_neg Bool.false_ne_true, if_neg Bool.false_ne_true,
      hlayout.options, hlayout.blockRows hcontent, hcount]

end FileScan

/-! ### The workers of a run -/

inductive CopyPhase
  | waiting
  | found (donor : ℤ)
  | hashing
  | stored
  | done

structure CopyRun where
  rows : ℤ → FileHashes Digest
  donors : LayoutDonors
  phase : ℤ → CopyPhase

def Hashing.queued (job : Hashing δ) (l : FileHashes δ) : FileHashes δ :=
  match job.resumeScan l with
  | (_, none) => .empty
  | (f, some _) => f

namespace CopyRun

def start (scan : ℤ → FileScan Digest) (left : ℤ → FileHashes Digest) : CopyRun :=
  ⟨fun i => (scan i).queued (left i), LayoutDonors.init, fun _ => .waiting⟩

def enter (s : CopyRun) (i : ℤ) (phase : CopyPhase) : CopyRun :=
  { s with phase := Function.update s.phase i phase }

def store (s : CopyRun) (i : ℤ) (f : FileHashes Digest) : CopyRun :=
  { s with rows := Function.update s.rows i f }

/-- Steps of the workers in any order, over files of which earlier runs have left what `left` says.
Only a file without a usable checkpoint looks for a donor. Rows without a digest come and go with
flushed batches and checkpoints, and are what a lost batch leaves of results that were in it. -/
inductive Step (scan : ℤ → FileScan Digest) (left : ℤ → FileHashes Digest) :
    CopyRun → CopyRun → Prop
  | look {s : CopyRun} {i donor : ℤ} {key : Digest} (hwaits : s.phase i = .waiting)
      (hnew : ((scan i).resumeScan (left i)).2 = none) (hkey : (scan i).layoutKey = some key)
      (hfind : s.donors.layoutDonorFind key = some donor) :
      Step scan left s (s.enter i (if donor = 0 ∨ donor = i then .hashing else .found donor))
  | skip {s : CopyRun} {i : ℤ} (hwaits : s.phase i = .waiting) :
      Step scan left s (s.enter i .hashing)
  | copy {s : CopyRun} {i donor : ℤ} (hfound : s.phase i = .found donor)
      (hmatch : layoutMatches (s.rows donor).extents (scan i).fiemap = true) :
      Step scan left s
        ((s.store i ((s.rows donor).copyScannedFile (scan i).copyFlags)).enter i .done)
  | decline {s : CopyRun} {i donor : ℤ} (hfound : s.phase i = .found donor) :
      Step scan left s (s.enter i .hashing)
  | unscanned {s : CopyRun} {i : ℤ} {f : FileHashes Digest}
      (hphase : s.phase i = .hashing ∨ s.phase i = .stored ∨ s.phase i = .done)
      (hf : f.scanned = none) : Step scan left s (s.store i f)
  | hash {s : CopyRun} {i : ℤ} {f g : FileHashes Digest} (hhashes : s.phase i = .hashing)
      (hg : (scan i).Finished (left i) g) (hf : g.results = f.results) :
      Step scan left s ((s.store i f).enter i .stored)
  | offer {s : CopyRun} {i : ℤ} {key : Digest} {g : Growth} {accepted : Bool}
      {donors : LayoutDonors} (hstored : s.phase i = .stored)
      (hkey : (scan i).layoutKey = some key)
      (hadd : s.donors.layoutDonorAdd ⟨key, i⟩ g = some (accepted, donors)) :
      Step scan left s ({ s with donors := donors }.enter i .done)
  | finish {s : CopyRun} {i : ℤ} (hphase : s.phase i = .hashing ∨ s.phase i = .stored) :
      Step scan left s (s.enter i .done)

end CopyRun

/-- What copies rest on: the files are hashed alike, in the scans that were interrupted too, and do
not change, and the key keeps maps apart that the rows do not. -/
structure Copyable (disk : ℕ → UInt8) (scan : ℤ → FileScan Digest) (content : ℤ → ℕ → UInt8)
    (left : ℤ → FileHashes Digest) : Prop where
  options : ∀ i j, (scan i).options = (scan j).options
  xxh : ∀ i j, (scan i).xxh = (scan j).xxh
  newDigests : ∀ i, (scan i).options.oldHoleDigests = false
  reads : ∀ i, (scan i).env.ReadsFully (content i)
  leaves : ∀ i, (scan i).Leaves (content i) (left i)
  backed : ∀ i, Backed disk (scan i).fiemap (scan i).filesize (content i)
  fits : ∀ i, (scan i).fiemap.Fits (scan i).filesize
  apart : ∀ i j, (scan i).dataExtents.map FiemapExtent.place =
      (scan j).fiemap.fmExtents.map FiemapExtent.place →
    (scan i).xxh ((scan i).fiemap.layoutBytes (scan i).filesize) =
      (scan j).xxh ((scan j).fiemap.layoutBytes (scan j).filesize) →
    (scan i).fiemap.layoutBytes (scan i).filesize = (scan j).fiemap.layoutBytes (scan j).filesize

theorem FileScan.layoutKey_eq_some {scan : FileScan δ} {key : δ}
    (h : scan.layoutKey = some key) :
    fiemapLayoutKey scan.xxh scan.fiemap scan.filesize = some key := by
  unfold layoutKey at h
  split_ifs at h
  exact h

namespace Copyable

variable {disk : ℕ → UInt8} {scan : ℤ → FileScan Digest} {content : ℤ → ℕ → UInt8}
  {left : ℤ → FileHashes Digest} (h : Copyable disk scan content left) {i d : ℤ}
  {f : FileHashes Digest} {key : Digest}

include h

/-- A donor whose rows match, and whose key is the file's, has the file's layout and no record
without a row. -/
theorem sameLayout (hkey : (scan i).layoutKey = some key) (hkey' : (scan d).layoutKey = some key)
    (hplaces : (scan d).dataExtents.map FiemapExtent.place =
      (scan i).fiemap.fmExtents.map FiemapExtent.place) :
    (scan d).SameLayout (scan i).toHashing ∧
      ∀ e ∈ (scan d).fiemap.fmExtents, e.skipped = false := by
  have hlayoutKey := FileScan.layoutKey_eq_some hkey
  rw [h.xxh i d] at hlayoutKey
  obtain ⟨hsize, hmasked⟩ := masked_eq_of_key (FileScan.layoutKey_eq_some hkey') hlayoutKey
    (h.fits d) (h.fits i) fun hdigest => h.apart d i hplaces (by rwa [h.xxh i d])
  refine ⟨⟨h.options d i, h.xxh d i, hsize, hmasked⟩, fun e he => ?_⟩
  -- as many records get a row as there are
  have hlength : (scan d).dataExtents.length = (scan d).fiemap.fmExtents.length := by
    have hrecords := congrArg (fun fm => fm.fmExtents.length) hmasked
    simp only [Fiemap.masked, List.length_map] at hrecords
    simpa [hrecords] using congrArg List.length hplaces
  have hall := List.length_filter_eq_length_iff.mp hlength e he
  simp only [Bool.and_eq_true, Bool.not_eq_true'] at hall
  exact hall.1

theorem stores_copy (hkey : (scan i).layoutKey = some key) (hkey' : (scan d).layoutKey = some key)
    (hf : (scan d).Stores (content d) (left d) f)
    (hmatch : layoutMatches f.extents (scan i).fiemap = true) :
    (scan i).Stores (content i) (left i) (f.copyScannedFile (scan i).copyFlags) := by
  have hrows : f.extents = (scan d).dataExtents.map ((scan d).extentRow (content d)) := by
    obtain ⟨t, emitted, -, -, hextents, -⟩ := hf
    rw [hextents] at hmatch ⊢
    split_ifs at hmatch ⊢ with hwhole
    · simp [layoutMatches] at hmatch
    · rfl
  rw [hrows, layoutMatches_extentRows] at hmatch
  obtain ⟨hlayout, hdata⟩ := h.sameLayout hkey hkey' hmatch.1
  have hreject := (fiemapLayoutKey_eq_some (FileScan.layoutKey_eq_some hkey)).2.1
  have hreject' := (fiemapLayoutKey_eq_some (FileScan.layoutKey_eq_some hkey')).2.1
  have hbacked := h.backed i
  rw [← hlayout.filesize] at hbacked
  exact hf.copy hlayout
    (fun p hp => (h.backed d).content_eq hbacked hlayout.fiemap hreject' hreject hdata hp)
    (FileScan.not_inlined_of_reject hreject')

end Copyable

namespace CopyRun

variable {disk : ℕ → UInt8} {scan : ℤ → FileScan Digest} {content : ℤ → ℕ → UInt8}
  {left : ℤ → FileHashes Digest} {s s' : CopyRun}

/-- What holds of a run: the donors are each under their own key, a file that may be copied to has
no rows, and a file with a digest has the rows that go with it. -/
structure Right (scan : ℤ → FileScan Digest) (content : ℤ → ℕ → UInt8)
    (left : ℤ → FileHashes Digest) (s : CopyRun) : Prop where
  donors : ∃ es, Serves LayoutDonor.key donorHash s.donors es ∧
    ∀ d ∈ es, (scan d.fileid).layoutKey = some d.key
  untouched : ∀ i, s.phase i = .waiting → ((scan i).resumeScan (left i)).2 = none →
    s.rows i = .empty
  found : ∀ i d, s.phase i = .found d → s.rows i = .empty ∧ ∃ key,
    (scan i).layoutKey = some key ∧ (scan d).layoutKey = some key
  rows : ∀ i, (s.rows i).scanned ≠ none → (scan i).Stores (content i) (left i) (s.rows i)

theorem start_right (hcopyable : Copyable disk scan content left) :
    Right scan content left (start scan left) where
  donors := ⟨[], LayoutDonors.serves_init, fun _ hd => absurd hd List.not_mem_nil⟩
  untouched i _ hnew := by
    change (scan i).queued (left i) = .empty
    unfold Hashing.queued
    generalize (scan i).resumeScan (left i) = ran at hnew
    obtain ⟨f, cp⟩ := ran
    obtain rfl : cp = none := hnew
    rfl
  found _ _ hfound := nomatch hfound
  rows i hscanned := by
    refine absurd ?_ hscanned
    change ((scan i).queued (left i)).scanned = none
    have hresumed := (FileScan.resumable_of_leaves (hcopyable.leaves i)).resumeScan.unscanned
    unfold Hashing.queued
    generalize (scan i).resumeScan (left i) = ran at hresumed
    rcases ran with ⟨f, _ | cp⟩
    · rfl
    · exact hresumed

/-- One worker's move: the rows and the place that are new have to agree with each other. -/
theorem Right.move (h : Right scan content left s) {i : ℤ} {f : FileHashes Digest}
    {phase : CopyPhase} (hwaits : phase ≠ .waiting)
    (hfound : ∀ d, phase = .found d → f = .empty ∧ ∃ key, (scan i).layoutKey = some key ∧
      (scan d).layoutKey = some key)
    (hrows : f.scanned ≠ none → (scan i).Stores (content i) (left i) f) :
    Right scan content left ((s.store i f).enter i phase) where
  donors := h.donors
  untouched j := by
    by_cases hji : j = i
    · subst hji
      simpa [CopyRun.enter] using fun hwaiting => absurd hwaiting hwaits
    · simpa [CopyRun.enter, store, hji] using h.untouched j
  found j := by
    by_cases hji : j = i
    · subst hji
      simpa [CopyRun.enter, store] using hfound
    · simpa [CopyRun.enter, store, hji] using h.found j
  rows j := by
    by_cases hji : j = i
    · subst hji
      simpa [CopyRun.enter, store] using hrows
    · simpa [CopyRun.enter, store, hji] using h.rows j

theorem store_rows (s : CopyRun) (i : ℤ) : s.store i (s.rows i) = s := by
  rw [store, Function.update_eq_self]

theorem enter_phase (s : CopyRun) (i : ℤ) : s.enter i (s.phase i) = s := by
  rw [enter, Function.update_eq_self]

/-- Nothing is asked of the place of a worker that hashes its file or has done so. -/
theorem Right.move_on (h : Right scan content left s) {i : ℤ} {f : FileHashes Digest}
    {phase : CopyPhase} (hphase : phase = .hashing ∨ phase = .stored ∨ phase = .done)
    (hrows : f.scanned ≠ none → (scan i).Stores (content i) (left i) f) :
    Right scan content left ((s.store i f).enter i phase) := by
  refine h.move ?_ (fun d hplace => ?_) hrows
  · rcases hphase with rfl | rfl | rfl <;> simp
  · rcases hphase with rfl | rfl | rfl <;> simp at hplace

/-- A worker that goes on to hash its file, or is done with it, leaves the rows. -/
theorem Right.leave (h : Right scan content left s) {i : ℤ} {phase : CopyPhase}
    (hphase : phase = .hashing ∨ phase = .stored ∨ phase = .done) :
    Right scan content left (s.enter i phase) := by
  rw [← s.store_rows i]
  exact h.move_on hphase (h.rows i)

theorem Step.right (hcopyable : Copyable disk scan content left) (h : Right scan content left s)
    (hstep : Step scan left s s') : Right scan content left s' := by
  cases hstep with
  | @look i donor key hwaits hnew hkey hfind =>
    split_ifs with hnone
    · exact h.leave (Or.inl rfl)
    obtain ⟨es, hserves, hes⟩ := h.donors
    rw [LayoutDonors.layoutDonorFind_eq hserves, Option.some.injEq] at hfind
    cases hentry : es.find? fun d => d.key = key with
    | none =>
      rw [hentry] at hfind
      exact absurd hfind.symm fun hzero => hnone (Or.inl hzero)
    | some entry =>
      rw [hentry] at hfind
      have hlisted := hes entry (List.mem_of_find?_eq_some hentry)
      have hsame : entry.key = key := by simpa using List.find?_some hentry
      rw [← s.store_rows i]
      refine h.move (by simp) (fun d hd => ⟨h.untouched i hwaits hnew, key, hkey, ?_⟩) (h.rows i)
      obtain rfl := CopyPhase.found.inj hd
      obtain rfl : entry.fileid = donor := hfind
      exact hsame ▸ hlisted
  | skip hwaits => exact h.leave (Or.inl rfl)
  | @copy i donor hfound hmatch =>
    refine h.move_on (Or.inr (Or.inr rfl)) fun hscanned => ?_
    obtain ⟨-, key, hkey, hkey'⟩ := h.found i donor hfound
    refine hcopyable.stores_copy hkey hkey' (h.rows donor fun hnone => hscanned ?_) hmatch
    rw [FileHashes.copyScannedFile, hnone]
    rfl
  | decline hfound => exact h.leave (Or.inl rfl)
  | @unscanned i f hphase hf =>
    rw [← (s.store i f).enter_phase i]
    exact h.move_on hphase fun hscanned => absurd hf hscanned
  | @hash i f g hhashes hg hf =>
    refine h.move_on (Or.inr (Or.inl rfl)) fun _ => ?_
    exact (hg.stores (hcopyable.leaves i) (hcopyable.reads i) (hcopyable.newDigests i)).congr hf
  | @offer i key growth accepted donors hstored hkey hadd =>
    obtain ⟨es, hserves, hes⟩ := h.donors
    obtain ⟨accepted', donors', hadd', hserves'⟩ :=
      LayoutDonors.layoutDonorAdd_spec s.donors es ⟨key, i⟩ growth hserves
    rw [hadd'] at hadd
    obtain ⟨rfl, rfl⟩ := Prod.mk.inj (Option.some.inj hadd)
    have hright : Right scan content left { s with donors := donors' } := by
      refine ⟨⟨_, hserves', fun d hd => ?_⟩, h.untouched, h.found, h.rows⟩
      split_ifs at hd
      · rcases List.mem_append.mp hd with hd | hd
        · exact hes d hd
        · obtain rfl := List.mem_singleton.mp hd
          exact hkey
      · exact hes d hd
    exact hright.leave (Or.inr (Or.inr rfl))
  | finish hphase => exact h.leave (Or.inr (Or.inr rfl))

theorem right_of_run (hcopyable : Copyable disk scan content left)
    (hrun : Relation.ReflTransGen (Step scan left) (start scan left) s) :
    Right scan content left s := by
  induction hrun with
  | refl => exact start_right hcopyable
  | tail _ hstep ih => exact Step.right hcopyable ih hstep

end CopyRun

/-- The first file keeps its block alone as far as its map says; the others are snapshots of it. -/
def clonedFlags (i : ℤ) : UInt32 :=
  if i = 1 then FIEMAP_EXTENT_LAST else FIEMAP_EXTENT_LAST ||| FIEMAP_EXTENT_SHARED

def clonedFile (i : ℤ) : FileToScan where
  filesize := READ_BUF_LEN
  mtime := 0
  fiemap := ⟨[⟨0, 65536, 4096, clonedFlags i⟩], by simp, by simp⟩

def clonedContent (p : ℕ) : UInt8 := if p < 4096 then 1 else 0

/-- A first scan of the file with block hashing on; snapshots are read-only. -/
def clonedScan (i : ℤ) : FileScan Digest where
  options := ⟨fourKiB, true, false, false, false⟩
  file := clonedFile i
  xxh bytes := Vector.ofFn fun k => bytes.getD k 0
  pacing := ⟨true, 16, 2 ^ 30, 0⟩
  pread := fullReads clonedContent
  interrupted _ := false
  io := quietIO
  rdonlySubvol := decide (i ≠ 1)

def FileScan.killed (scan : FileScan δ) : FileScan δ := { scan with interrupted := fun _ => true }

theorem clonedFlags_layout (i : ℤ) : clonedFlags i &&& ~~~LAYOUT_IGNORE_FLAGS = 0 ∧
    clonedFlags i &&& LAYOUT_REJECT_FLAGS = 0 := by
  unfold clonedFlags
  split_ifs
  · decide
  · decide

theorem clonedFile_layoutWords (i : ℤ) : (clonedFile i).fiemap.layoutWords READ_BUF_LEN =
    [READ_BUF_LEN, 1, 0, 65536, 4096, 0] := by
  simp [Fiemap.layoutWords, clonedFile, FiemapExtent.layoutWords, FiemapExtent.masked,
    (clonedFlags_layout i).1]

theorem clonedScan_layoutKey (i : ℤ) : (clonedScan i).layoutKey = some
    ((clonedScan 1).xxh ([READ_BUF_LEN, 1, 0, 65536, 4096, 0].flatMap uint64Bytes)) := by
  have hreject : (clonedFile i).fiemap.fmExtents.any
      (·.hasFlags LAYOUT_REJECT_FLAGS) = false := by
    simp [clonedFile, FiemapExtent.hasFlags, (clonedFlags_layout i).2]
  have hrecord : (clonedFile i).fiemap.fmExtents ≠ [] := List.cons_ne_nil _ _
  rw [← clonedFile_layoutWords i, FileScan.layoutKey, if_pos]
  · change fiemapLayoutKey _ (clonedFile i).fiemap _ = _
    rw [fiemapLayoutKey, if_neg hrecord, if_neg, if_neg (by rw [hreject]; exact Bool.false_ne_true)]
    · rfl
    · change ¬ INT_MAX < 8 * (2 + 4 * 1)
      decide
  · exact le_refl READ_BUF_LEN

theorem clonedScan_readsFully (i : ℤ) : (clonedScan i).env.ReadsFully clonedContent := by
  refine ⟨fun pos want data h => ?_, fun _ _ _ => rfl⟩
  obtain rfl := Option.some.inj h
  simp

def clonedCheckpoint : FileHashes Digest :=
  (((clonedScan 1).killed.env.csumPass ((clonedScan 1).killed.env.startState none
    (.opened .empty))).state.map fun u => u.world.conn.durable).getD .empty

def clonedLeft (i : ℤ) : FileHashes Digest := if i = 1 then clonedCheckpoint else .empty

set_option maxRecDepth 20000 in
theorem clonedScan_pass_isSome : ((clonedScan 1).killed.env.csumPass
    ((clonedScan 1).killed.env.startState none (.opened .empty))).state.isSome = true := rfl

theorem clonedLeft_leaves (i : ℤ) : (clonedScan i).Leaves clonedContent (clonedLeft i) := by
  unfold clonedLeft
  split_ifs with hfirst
  · subst hfirst
    obtain ⟨u, hu⟩ := Option.isSome_iff_exists.mp clonedScan_pass_isSome
    have hleft : clonedCheckpoint = u.world.conn.durable := by
      rw [clonedCheckpoint, hu]
      rfl
    rw [hleft]
    have hfull := clonedScan_readsFully 1
    exact @FileScan.leaves_of_firstPass _ (clonedScan 1).killed _ _ ⟨hfull.1, hfull.2⟩
      quietIO_not_fails (show 0 < READ_BUF_LEN by decide) hu
  · exact .fresh

theorem clonedScan_copyable :
    Copyable (fun _ => 1) clonedScan (fun _ => clonedContent) clonedLeft where
  options _ _ := rfl
  xxh _ _ := rfl
  newDigests _ := rfl
  reads := clonedScan_readsFully
  leaves := clonedLeft_leaves
  backed i := by
    constructor
    · intro e he _ _ p _ hholds
      obtain rfl := List.mem_singleton.mp he
      exact if_pos hholds.2
    · intro p _ hhole
      exact if_neg fun hlt => hhole _ (List.mem_singleton.mpr rfl) ⟨Nat.zero_le p, hlt⟩
  fits i n hn := by
    rw [show (clonedScan i).fiemap.layoutWords (clonedScan i).filesize =
      [READ_BUF_LEN, 1, 0, 65536, 4096, 0] from clonedFile_layoutWords i] at hn
    revert n
    decide
  apart i j _ _ := congrArg (List.flatMap uint64Bytes)
    ((clonedFile_layoutWords i).trans (clonedFile_layoutWords j).symm)

set_option maxRecDepth 20000 in
theorem clonedScan_stores : ∃ w', (clonedScan 1).csumWholeFile 4 none (.opened .empty) =
    some (.stored w') := ⟨_, rfl⟩

set_option maxRecDepth 20000 in
theorem clonedScan_resumes : ((clonedScan 1).resumeScan (clonedLeft 1)).2.isSome = true ∧
    ∃ w', (clonedScan 1).csumWholeFile 4 (clonedLeft 1).checkpoint
      (.opened ((clonedScan 1).prepare (clonedLeft 1))) = some (.stored w') := ⟨rfl, _, rfl⟩

theorem clonedScan_hashed : ∃ f, (clonedScan 1).Hashed f := by
  obtain ⟨w', hrun⟩ := clonedScan_stores
  exact ⟨w'.view, 4, .opened .empty, w', ScanWriter.opened_idle _, ScanWriter.opened_view _, hrun,
    fun h => absurd h quietIO_not_fails, rfl⟩

theorem clonedScan_finished : ∃ f, (clonedScan 1).Finished (clonedLeft 1) f := by
  obtain ⟨-, w', hrun⟩ := clonedScan_resumes
  exact ⟨w'.view, 4, _, w', ScanWriter.opened_idle _, ScanWriter.opened_view _, hrun,
    fun h => absurd h quietIO_not_fails, rfl⟩

theorem clonedScan_matches {l f : FileHashes Digest}
    (hf : (clonedScan 1).Stores clonedContent l f) :
    layoutMatches f.extents (clonedScan 2).fiemap = true := by
  obtain ⟨t, emitted, -, -, hextents, -⟩ := hf
  have hdata : (clonedScan 1).dataExtents = [⟨0, 65536, 4096, FIEMAP_EXTENT_LAST⟩] := by decide
  rw [hextents, if_neg (by decide), layoutMatches_extentRows, hdata]
  exact ⟨rfl, List.cons_ne_nil _ _⟩

namespace FileScan

/-- The rows of a donor with the file's layout match the file's map exactly if each of its records
is data that starts inside the file, and extents are hashed at all. -/
theorem layoutMatches_iff (scan scan' : FileScan δ) (content : ℕ → UInt8) (f : FileHashes δ)
    (hlayout : scan.SameLayout scan'.toHashing) (hfull : scan.env.ReadsFully content)
    (hnew : scan.options.oldHoleDigests = false) (hf : scan.Hashed f) :
    layoutMatches f.extents scan'.fiemap = true ↔ scan.options.onlyWholeFiles = false ∧
      scan'.fiemap.fmExtents ≠ [] ∧
        ∀ e ∈ scan'.fiemap.fmExtents, e.skipped = false ∧ e.feLogical < scan'.filesize := by
  have hrecords : scan.fiemap.fmExtents.map FiemapExtent.masked =
      scan'.fiemap.fmExtents.map FiemapExtent.masked :=
    congrArg Fiemap.fmExtents hlayout.fiemap
  have hplaces : scan.fiemap.fmExtents.map FiemapExtent.place =
      scan'.fiemap.fmExtents.map FiemapExtent.place := by
    have hsame := congrArg (List.map FiemapExtent.place) hrecords
    rw [List.map_map, List.map_map] at hsame
    exact hsame
  have hlength : scan.fiemap.fmExtents.length = scan'.fiemap.fmExtents.length := by
    simpa using congrArg List.length hrecords
  have hdata : (∀ e ∈ scan'.fiemap.fmExtents, e.skipped = false ∧ e.feLogical < scan'.filesize) ↔
      ∀ e ∈ scan.fiemap.fmExtents, (!e.skipped && decide (e.feLogical < scan.filesize)) = true := by
    have hmasked : ∀ es : List FiemapExtent,
        (∀ e ∈ es, e.skipped = false ∧ e.feLogical < scan'.filesize) ↔
          ∀ e ∈ es.map FiemapExtent.masked, e.skipped = false ∧ e.feLogical < scan'.filesize := by
      simp
    rw [hmasked, ← hrecords, ← hmasked, ← hlayout.filesize]
    simp
  obtain ⟨t, emitted, -, -, hextents, -⟩ := hf.stores hfull hnew
  rw [hextents, hdata]
  cases hwhole : scan.options.onlyWholeFiles with
  | true => simp [layoutMatches]
  | false =>
    rw [if_neg Bool.false_ne_true, layoutMatches_extentRows, ← hplaces]
    constructor
    · rintro ⟨hsame, hsome⟩
      have hall : scan.dataExtents.length = scan.fiemap.fmExtents.length := by
        simpa using congrArg List.length hsame
      refine ⟨rfl, fun hnil => hsome ?_, List.length_filter_eq_length_iff.mp hall⟩
      rw [← List.length_eq_zero_iff, hall, hlength, hnil, List.length_nil]
    · rintro ⟨-, hsome, hall⟩
      have hdata : scan.dataExtents = scan.fiemap.fmExtents := List.filter_eq_self.mpr hall
      rw [hdata]
      refine ⟨rfl, fun hnil => hsome ?_⟩
      rw [← List.length_eq_zero_iff, ← hlength, hnil, List.length_nil]

end FileScan

theorem layoutMatches_iff_snapshot : ∃ f, (clonedScan 1).Hashed f ∧
    layoutMatches f.extents (clonedScan 2).fiemap = true := by
  obtain ⟨f, hf⟩ := clonedScan_hashed
  have hlayout : (clonedScan 1).SameLayout (clonedScan 2).toHashing := by
    refine ⟨rfl, rfl, rfl, ?_⟩
    change (clonedFile 1).fiemap.masked = (clonedFile 2).fiemap.masked
    simp [Fiemap.masked, clonedFile, FiemapExtent.masked, (clonedFlags_layout _).1]
  refine ⟨f, hf, (FileScan.layoutMatches_iff (clonedScan 1) (clonedScan 2) clonedContent f
    hlayout (clonedScan_copyable.reads 1) rfl hf).mpr ⟨rfl, List.cons_ne_nil _ _, ?_⟩⟩
  intro e he
  obtain rfl := List.mem_singleton.mp he
  decide

end Oans
