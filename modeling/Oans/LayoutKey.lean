import Oans.CleanDeduped
import Oans.ResumeOptions

/-!
# The key of a file's layout

Two files whose maps give the same key agree in size and in every record, up to the flags that say
nothing about content. The hash loop asks nothing else of a map, so over the same bytes it feeds
the file checksum alike and makes the same rows.
-/

namespace Oans

def FIEMAP_EXTENT_ENCODED : UInt32 := 0x8
def FIEMAP_EXTENT_DATA_ENCRYPTED : UInt32 := 0x80

/-- Flags of records whose address does not name their bytes. -/
def LAYOUT_REJECT_FLAGS : UInt32 :=
  FIEMAP_EXTENT_UNKNOWN ||| FIEMAP_EXTENT_DELALLOC ||| FIEMAP_EXTENT_DATA_INLINE |||
    FIEMAP_EXTENT_DATA_ENCRYPTED ||| FIEMAP_EXTENT_ENCODED

/-- Flags that say nothing about content. -/
def LAYOUT_IGNORE_FLAGS : UInt32 := FIEMAP_EXTENT_SHARED ||| FIEMAP_EXTENT_LAST

def INT_MAX : ℕ := 2 ^ 31 - 1

namespace FiemapExtent

def masked (e : FiemapExtent) : FiemapExtent :=
  { e with feFlags := e.feFlags &&& ~~~LAYOUT_IGNORE_FLAGS }

def place (e : FiemapExtent) : ℕ × ℕ × ℕ := (e.feLogical, e.fePhysical, e.feLength)

def layoutWords (e : FiemapExtent) : List ℕ :=
  [e.feLogical, e.fePhysical, e.feLength, e.masked.feFlags.toNat]

end FiemapExtent

def Fiemap.layoutWords (fm : Fiemap) (size : ℕ) : List ℕ :=
  size :: fm.fmExtents.length :: fm.fmExtents.flatMap FiemapExtent.layoutWords

def Fiemap.layoutBytes (fm : Fiemap) (size : ℕ) : List UInt8 :=
  (fm.layoutWords size).flatMap uint64Bytes

def fiemapLayoutKey {δ : Type*} (checksum : List UInt8 → δ) (fm : Fiemap) (size : ℕ) : Option δ :=
  if fm.fmExtents = [] then none
  else if INT_MAX < 8 * (2 + 4 * fm.fmExtents.length) then none
  else if fm.fmExtents.any (·.hasFlags LAYOUT_REJECT_FLAGS) then none
  else some (checksum (fm.layoutBytes size))

def layoutMatchesLoop {δ : Type*} : List (ExtentCsum δ) → List FiemapExtent → Bool
  | [], es => es.isEmpty
  | _ :: _, [] => false
  | row :: rows, e :: es =>
    if row.loff ≠ e.feLogical ∨ row.poff ≠ e.fePhysical ∨ row.len ≠ e.feLength then false
    else layoutMatchesLoop rows es

def ExtentCsum.place {δ : Type*} (row : ExtentCsum δ) : ℕ × ℕ × ℕ := (row.loff, row.poff, row.len)

/-- `dbfile_layout_matches()`; the rows are selected in the order of their offsets. -/
def layoutMatches {δ : Type*} (rows : List (ExtentCsum δ)) (fm : Fiemap) : Bool :=
  layoutMatchesLoop (rows.mergeSort fun row row' => row.loff ≤ row'.loff) fm.fmExtents &&
    !rows.isEmpty

/-! ### Maps without the ignored flags -/

namespace FiemapExtent

variable {e : FiemapExtent}

@[simp] theorem masked_feLogical : e.masked.feLogical = e.feLogical := rfl

@[simp] theorem masked_fePhysical : e.masked.fePhysical = e.fePhysical := rfl

@[simp] theorem masked_feLength : e.masked.feLength = e.feLength := rfl

@[simp] theorem masked_feEnd : e.masked.feEnd = e.feEnd := rfl

@[simp] theorem masked_overlaps {a b : ℕ} : e.masked.Overlaps a b ↔ e.Overlaps a b := Iff.rfl

theorem masked_hasFlags {flags : UInt32} (h : ~~~LAYOUT_IGNORE_FLAGS &&& flags = flags) :
    e.masked.hasFlags flags = e.hasFlags flags := by
  rw [hasFlags, masked, UInt32.and_assoc, h, hasFlags]

@[simp] theorem masked_skipped : e.masked.skipped = e.skipped := masked_hasFlags (by decide)

@[simp] theorem masked_inline : e.masked.inline = e.inline := masked_hasFlags (by decide)

end FiemapExtent

namespace Fiemap

variable {fm fm' : Fiemap}

def masked (fm : Fiemap) : Fiemap where
  fmExtents := fm.fmExtents.map FiemapExtent.masked
  positive := by simpa using fm.positive
  sorted := by simpa [List.pairwise_map] using fm.sorted

theorem nextExtent_masked (off : ℕ) :
    fm.masked.nextExtent off = (fm.nextExtent off).map FiemapExtent.masked := by
  rw [nextExtent, nextExtent, masked, List.find?_map]
  rfl

@[simp] theorem holeBlock_masked {b off : ℕ} : fm.masked.HoleBlock b off ↔ fm.HoleBlock b off := by
  rw [HoleBlock, HoleBlock, nextExtent_masked]
  cases fm.nextExtent off with
  | none => rfl
  | some e => rfl

@[simp] theorem holeRun_masked {b filesize off : ℕ} :
    fm.masked.holeRun b filesize off = fm.holeRun b filesize off := by
  rw [holeRun, holeRun, nextExtent_masked]
  cases fm.nextExtent off with
  | none => rfl
  | some e => rfl

@[simp] theorem areaIgnored_masked {a b : ℕ} :
    fm.masked.AreaIgnored a b ↔ fm.AreaIgnored a b := by
  simp [AreaIgnored, masked]

theorem isReadCap_masked {b filesize off cap : ℕ} :
    fm.masked.IsReadCap b filesize off cap ↔ fm.IsReadCap b filesize off cap := by
  constructor
  · rintro ⟨hlt, hle, hstop, hnone⟩
    exact ⟨hlt, hle, by simpa using hstop, by simpa using hnone⟩
  · rintro ⟨hlt, hle, hstop, hnone⟩
    exact ⟨hlt, hle, by simpa using hstop, by simpa using hnone⟩

end Fiemap

/-! ### Maps with one key -/

theorem uint64Bytes_inj {m n : ℕ} (hm : m < 2 ^ 64) (hn : n < 2 ^ 64)
    (h : uint64Bytes m = uint64Bytes n) : m = n := by
  have hbyte : ∀ i < 8, m / 256 ^ i % 256 = n / 256 ^ i % 256 := by
    intro i hi
    have hget := congrArg (·[i]?) h
    simp only [uint64Bytes, List.getElem?_map, List.getElem?_range hi, Option.map_some,
      Option.some.injEq] at hget
    have := congrArg UInt8.toNat hget
    rwa [UInt8.toNat_ofNat', UInt8.toNat_ofNat'] at this
  have h0 := hbyte 0 (by decide)
  have h1 := hbyte 1 (by decide)
  have h2 := hbyte 2 (by decide)
  have h3 := hbyte 3 (by decide)
  have h4 := hbyte 4 (by decide)
  have h5 := hbyte 5 (by decide)
  have h6 := hbyte 6 (by decide)
  have h7 := hbyte 7 (by decide)
  omega

theorem length_uint64Bytes (n : ℕ) : (uint64Bytes n).length = 8 := by
  rw [uint64Bytes, List.length_map, List.length_range]

theorem flatMap_uint64Bytes_inj {ms ns : List ℕ} (hm : ∀ m ∈ ms, m < 2 ^ 64)
    (hn : ∀ n ∈ ns, n < 2 ^ 64) (h : ms.flatMap uint64Bytes = ns.flatMap uint64Bytes) :
    ms = ns := by
  induction ms generalizing ns with
  | nil =>
    cases ns with
    | nil => rfl
    | cons n ns =>
      have := congrArg List.length h
      simp only [List.flatMap_nil, List.length_nil, List.flatMap_cons, List.length_append,
        length_uint64Bytes] at this
      omega
  | cons m ms ih =>
    cases ns with
    | nil =>
      have := congrArg List.length h
      simp [length_uint64Bytes] at this
    | cons n ns =>
      rw [List.flatMap_cons, List.flatMap_cons] at h
      obtain ⟨hhead, htail⟩ := List.append_inj h
        ((length_uint64Bytes m).trans (length_uint64Bytes n).symm)
      rw [uint64Bytes_inj (hm m List.mem_cons_self) (hn n List.mem_cons_self) hhead,
        ih (fun m' hm' => hm m' (List.mem_cons_of_mem m hm'))
          (fun n' hn' => hn n' (List.mem_cons_of_mem n hn')) htail]

theorem masked_eq_of_layoutWords {es es' : List FiemapExtent}
    (h : es.flatMap FiemapExtent.layoutWords = es'.flatMap FiemapExtent.layoutWords) :
    es.map FiemapExtent.masked = es'.map FiemapExtent.masked := by
  induction es generalizing es' with
  | nil =>
    cases es' with
    | nil => rfl
    | cons e' es' => cases h
  | cons e es ih =>
    cases es' with
    | nil => cases h
    | cons e' es' =>
      rw [List.flatMap_cons, List.flatMap_cons] at h
      obtain ⟨hhead, htail⟩ := List.append_inj h rfl
      have hrecord : e.masked = e'.masked := by
        simp only [FiemapExtent.layoutWords, List.cons.injEq, UInt32.toNat_inj] at hhead
        obtain ⟨hlogical, hphysical, hlength, hflags, -⟩ := hhead
        change FiemapExtent.mk e.feLogical e.fePhysical e.feLength e.masked.feFlags = _
        rw [hlogical, hphysical, hlength, hflags]
        rfl
      rw [List.map_cons, List.map_cons, hrecord, ih htail]

section Key

variable {δ : Type*} {checksum : List UInt8 → δ} {fm fm' : Fiemap} {size size' : ℕ} {key : δ}

def Fiemap.Fits (fm : Fiemap) (size : ℕ) : Prop := ∀ n ∈ fm.layoutWords size, n < 2 ^ 64

theorem fiemapLayoutKey_eq_some (h : fiemapLayoutKey checksum fm size = some key) :
    fm.fmExtents ≠ [] ∧ (∀ e ∈ fm.fmExtents, e.hasFlags LAYOUT_REJECT_FLAGS = false) ∧
      checksum (fm.layoutBytes size) = key := by
  unfold fiemapLayoutKey at h
  split_ifs at h with hempty _ hreject
  refine ⟨hempty, fun e he => ?_, Option.some.inj h⟩
  exact Bool.eq_false_of_not_eq_true fun hflag => hreject (List.any_eq_true.mpr ⟨e, he, hflag⟩)

/-- Two maps with one key agree in size and in every record, up to the ignored flags. -/
theorem masked_eq_of_key (h : fiemapLayoutKey checksum fm size = some key)
    (h' : fiemapLayoutKey checksum fm' size' = some key) (hfits : fm.Fits size)
    (hfits' : fm'.Fits size')
    (hcollide : checksum (fm.layoutBytes size) = checksum (fm'.layoutBytes size') →
      fm.layoutBytes size = fm'.layoutBytes size') :
    size = size' ∧ fm.masked = fm'.masked := by
  have hbytes := hcollide ((fiemapLayoutKey_eq_some h).2.2.trans
    (fiemapLayoutKey_eq_some h').2.2.symm)
  have hwords := flatMap_uint64Bytes_inj hfits hfits' hbytes
  obtain ⟨hsize, hrest⟩ := List.cons.inj hwords
  obtain ⟨-, hrecords⟩ := List.cons.inj hrest
  refine ⟨hsize, ?_⟩
  have := masked_eq_of_layoutWords hrecords
  rcases fm with ⟨es, hpos, hsorted⟩
  rcases fm' with ⟨es', hpos', hsorted'⟩
  simpa [Fiemap.masked] using this

end Key

/-! ### Rows that match -/

section Matches

variable {δ : Type*} {rows : List (ExtentCsum δ)} {es : List FiemapExtent}

theorem layoutMatchesLoop_iff : layoutMatchesLoop rows es = true ↔
    rows.map ExtentCsum.place = es.map FiemapExtent.place := by
  induction rows generalizing es with
  | nil =>
    cases es with
    | nil => exact iff_of_true rfl rfl
    | cons e es => exact iff_of_false nofun nofun
  | cons row rows ih =>
    cases es with
    | nil => exact iff_of_false nofun nofun
    | cons e es =>
      rw [layoutMatchesLoop, List.map_cons, List.map_cons, List.cons.injEq, ← ih]
      by_cases hplace : row.place = e.place
      · rw [if_neg]
        · simp [hplace]
        · simpa [ExtentCsum.place, FiemapExtent.place, not_or] using hplace
      · rw [if_pos]
        · simp [hplace]
        · simpa [ExtentCsum.place, FiemapExtent.place, imp_iff_not_or] using hplace

/-- A map matches the rows of a scan that finished if its records are just those that got one. -/
theorem layoutMatches_extentRows (job : Hashing δ) (content : ℕ → UInt8) (fm : Fiemap) :
    layoutMatches (job.dataExtents.map (job.extentRow content)) fm = true ↔
      job.dataExtents.map FiemapExtent.place = fm.fmExtents.map FiemapExtent.place ∧
        job.dataExtents ≠ [] := by
  have hsorted : (job.dataExtents.map (job.extentRow content)).Pairwise fun row row' =>
      decide (row.loff ≤ row'.loff) = true := by
    rw [List.pairwise_map]
    refine (job.fiemap.sorted.filter _).imp fun hend => decide_eq_true ?_
    exact (Nat.le_add_right _ _).trans hend
  have hplaces : (job.dataExtents.map (job.extentRow content)).map ExtentCsum.place =
      job.dataExtents.map FiemapExtent.place := by
    rw [List.map_map]
    rfl
  rw [layoutMatches, List.mergeSort_of_pairwise hsorted, Bool.and_eq_true, layoutMatchesLoop_iff,
    hplaces]
  simp

end Matches

/-! ### Scans over one layout -/

structure Hashing.SameLayout {δ : Type*} (job job' : Hashing δ) : Prop where
  options : job.options = job'.options
  xxh : job.xxh = job'.xxh
  filesize : job.filesize = job'.filesize
  fiemap : job.fiemap.masked = job'.fiemap.masked

namespace Hashing

open Slice

variable {δ : Type*} {job job' : Hashing δ} {content content' : ℕ → UInt8} {off stop : ℕ}

section Layout

variable (h : job.SameLayout job')

include h

theorem SameLayout.blocksize : job.blocksize = job'.blocksize :=
  congrArg (fun o : Options => o.blocksize.bytes) h.options

theorem SameLayout.fakeLen : job.fakeLen = job'.fakeLen := by
  rw [Hashing.fakeLen, h.blocksize, Hashing.fakeLen]

theorem SameLayout.holeBlock :
    job.fiemap.HoleBlock job.blocksize off ↔ job'.fiemap.HoleBlock job'.blocksize off := by
  rw [← Fiemap.holeBlock_masked, h.fiemap, Fiemap.holeBlock_masked, h.blocksize]

theorem SameLayout.holeRun : job.fiemap.holeRun job.blocksize job.filesize off =
    job'.fiemap.holeRun job'.blocksize job'.filesize off := by
  rw [← Fiemap.holeRun_masked, h.fiemap, Fiemap.holeRun_masked, h.blocksize, h.filesize]

theorem SameLayout.fakes : job.Fakes off ↔ job'.Fakes off := by
  rw [Fakes, Fakes, ← Fiemap.areaIgnored_masked, h.fiemap, Fiemap.areaIgnored_masked, h.fakeLen,
    h.filesize]

theorem SameLayout.isReadCap {cap : ℕ} : job.IsReadCap off cap ↔ job'.IsReadCap off cap := by
  rw [IsReadCap, IsReadCap, ← Fiemap.isReadCap_masked, h.fiemap, Fiemap.isReadCap_masked,
    h.blocksize, h.filesize]

theorem SameLayout.consumes (eof : Bool) :
    job.consumes eof off stop = job'.consumes eof off stop := by
  rw [Hashing.consumes, Hashing.consumes, h.options, h.blocksize]

theorem SameLayout.inlined : job.inlined = job'.inlined := by
  have hany : ∀ fm : Fiemap, ∀ p, (fm.getExtent p 0).1.any FiemapExtent.inline =
      (fm.masked.nextExtent p).any FiemapExtent.inline := by
    intro fm p
    rw [Fiemap.getExtent_fst, Fiemap.nextExtent_masked]
    cases fm.nextExtent p with
    | none => rfl
    | some e => exact FiemapExtent.masked_inline.symm
  rw [Hashing.inlined, Hashing.inlined, hany, hany, h.fiemap, h.filesize]

section Content

variable (hcontent : ∀ p < job.filesize, content p = content' p)

include hcontent

omit h in
theorem slice_eq {a b : ℕ} (hb : b ≤ job.filesize) :
    slice content a b = slice content' a b :=
  slice_congr fun p _ hp => hcontent p (hp.trans_le hb)

/-- From alike places both scans go on alike. -/
theorem SameLayout.stride_alike {p q : Progress} (hpq : p.Alike q) (hlt : p.off < job.filesize) :
    (job.stride content p).1 = (job'.stride content' q).1 ∧
      (job.stride content p).2.1.Alike (job'.stride content' q).2.1 := by
  obtain ⟨hoff, hfed⟩ := hpq
  have hadd : ∀ new, (p.fileCsum ++ [new]).flatMap Fed.raw =
      (q.fileCsum ++ [new]).flatMap Fed.raw := fun new => by
    simpa [Progress.fed] using hfed
  by_cases hhole : job.fiemap.HoleBlock job.blocksize p.off
  · rw [stride_hole hhole, stride_hole (hoff ▸ h.holeBlock.mp hhole), h.holeRun, ← hoff]
    exact ⟨rfl, rfl, hadd _⟩
  have hhole' : ¬ job'.fiemap.HoleBlock job'.blocksize q.off := hoff ▸ mt h.holeBlock.mpr hhole
  by_cases hfakes : job.Fakes p.off
  · rw [stride_faked hhole hfakes, stride_faked hhole' (hoff ▸ h.fakes.mp hfakes), h.fakeLen,
      h.filesize, ← hoff]
    exact ⟨rfl, rfl, hadd _⟩
  have hfakes' : ¬ job'.Fakes q.off := hoff ▸ mt h.fakes.mpr hfakes
  have hcap := Fiemap.nextHoleBlock_isReadCap job.blocksize_pos 0 hlt hhole
  generalize job.fiemap.nextHoleBlock job.blocksize job.filesize p.off 0 = cap at hcap
  obtain ⟨stop, hstop⟩ : ∃ stop, stop = p.off + min READ_BUF_LEN (cap - p.off) := ⟨_, rfl⟩
  have hp := @stride_read _ job content p _ _ _ hlt hhole hfakes hcap hstop rfl
  have hq := @stride_read _ job' content' q _ _ _ (hoff ▸ h.filesize ▸ hlt) hhole' hfakes'
    (hoff ▸ h.isReadCap.mp hcap) (hoff ▸ hstop) rfl
  have hin : stop ≤ job.filesize := by
    have := hcap.le
    omega
  have hconsumed := job.consumes_le (decide (job.filesize ≤ stop)) p.off stop
  rw [hp, hq, ← hoff, ← h.filesize, ← h.consumes, ← slice_eq hcontent (by omega)]
  exact ⟨rfl, rfl, hadd _⟩

theorem SameLayout.evaluates {t : Progress} {emitted : List (Rows δ)}
    (heval : Stepping.Evaluates job.BelowEnd (job.stride content) .zero t emitted) :
    ∃ u emitted', Stepping.Evaluates job'.BelowEnd (job'.stride content') .zero u emitted' ∧
      t.fed = u.fed := by
  have hsame : ∃ u emitted', Stepping.Evaluates job'.BelowEnd (job'.stride content') .zero u
      emitted' ∧ t.Alike u := by
    apply heval.simulate ⟨rfl, rfl⟩
    · intro u u' hrel
      rw [BelowEnd, BelowEnd, hrel.off, h.filesize]
    · intro u u' hrel hlt
      exact h.stride_alike hcontent hrel hlt
  obtain ⟨u, emitted', hu, halike⟩ := hsame
  exact ⟨u, emitted', hu, halike.fed⟩

theorem SameLayout.extentRows : job.dataExtents.map (job.extentRow content) =
    job'.dataExtents.map (job'.extentRow content') := by
  have hmasked : ∀ j : Hashing δ, ∀ c, j.dataExtents.map (j.extentRow c) =
      (j.fiemap.masked.fmExtents.filter fun e =>
        !e.skipped && decide (e.feLogical < j.filesize)).map (j.extentRow c) := by
    intro j c
    rw [dataExtents, Fiemap.masked, List.filter_map, List.map_map]
    congr 1
    refine List.filter_congr fun e _ => ?_
    rw [Function.comp_apply, FiemapExtent.masked_skipped, FiemapExtent.masked_feLogical]
  rw [hmasked, hmasked, h.fiemap, h.filesize]
  refine List.map_congr_left fun e _ => ?_
  have hclose : job.closesAt e = job'.closesAt e := by rw [closesAt, h.filesize, closesAt]
  have hin : job.closesAt e ≤ job.filesize := Nat.min_le_right _ _
  rw [extentRow, extentRow, h.xxh, ← hclose, slice_eq hcontent hin]

theorem SameLayout.hasBlockRow {k : ℕ} :
    job.HasBlockRow content k ↔ job'.HasBlockRow content' k := by
  have hreaches : ∀ j : Hashing δ, ∀ skipped, j.BlockReaches skipped k ↔
      ∃ e ∈ j.fiemap.masked.fmExtents, e.skipped = skipped ∧
        e.Overlaps (k * j.blocksize) ((k + 1) * j.blocksize) := by
    intro j skipped
    simp [BlockReaches, Fiemap.masked]
  unfold HasBlockRow
  simp only [hreaches, h.fiemap, h.blocksize, h.filesize, h.options]
  split_ifs with hwhole
  · rw [slice_eq hcontent (h.filesize ▸ hwhole)]
  · rfl

theorem SameLayout.blockRows {a b : ℕ} :
    job.blocksIn content a b = job'.blocksIn content' a b := by
  have hrow : job.blockRow content = job'.blockRow content' := by
    funext k
    rw [blockRow, blockRow, h.xxh, slice_eq hcontent (Nat.min_le_right _ _), h.blocksize,
      h.filesize]
  rw [blocksIn, blocksIn, hrow]
  congr 1
  refine List.filter_congr fun k _ => ?_
  rw [decide_eq_decide]
  exact h.hasBlockRow hcontent

end Content

end Layout

end Hashing

end Oans
