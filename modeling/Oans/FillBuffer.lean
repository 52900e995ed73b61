import Oans.ScanContext

/-!
# Filling the read buffer

`fill_buffer()` either fakes a whole buffer of zeroes over an ignored area or reads on from what
is left over, never past the read cap. Its meaning is stated on buffers that hold a slice of the
file at the current offset.
-/

namespace Oans

open Slice

/-- How `fill_buffer()` comes back; `eof` stands for its return value 0. -/
inductive Fill
  | readError
  | assertFailed
  | filled (eof : Bool) (ctxt : ScanCtxt) (buffer : Buffer)

namespace ScanEnv

variable {δ ω : Type*} (env : ScanEnv δ ω)

/-- `read_cap` is computed again once `off` has caught up with it. -/
def refreshReadCap (ctxt : ScanCtxt) : ScanCtxt :=
  if ctxt.readCap ≤ ctxt.off then
    { ctxt with readCap :=
        env.fiemap.nextHoleBlock env.blocksize env.filesize ctxt.off ctxt.extentCursor }
  else ctxt

def readMore (ctxt : ScanCtxt) (buffer : Buffer) : Fill :=
  let pos := ctxt.off + buffer.data.length
  if ctxt.readCap < pos then .assertFailed
  else
    let want := min (READ_BUF_LEN - buffer.data.length) (ctxt.readCap - pos)
    match if 0 < want then env.pread pos want else some [] with
    | none => .readError
    | some bytes =>
      -- a read of nothing: the file shrank since it was listed
      if 0 < want ∧ bytes = [] then .filled true ctxt ⟨buffer.data, false⟩
      else
        let data := buffer.data ++ bytes
        if READ_BUF_LEN < data.length then .assertFailed
        else .filled (env.filesize ≤ pos + bytes.length ∨ data = []) ctxt ⟨data, false⟩

def fillBuffer (ctxt : ScanCtxt) (buffer : Buffer) : Fill :=
  let (ignored, cursor) := env.fiemap.isAreaIgnored ctxt.off env.fakeLen ctxt.extentCursor
  let ctxt := { ctxt with extentCursor := cursor }
  if ignored = true ∧ ctxt.off + env.fakeLen ≤ env.filesize then
    .filled (env.filesize ≤ ctxt.off + env.fakeLen) ctxt
      ⟨List.replicate env.fakeLen 0, true⟩
  else env.readMore (env.refreshReadCap ctxt) buffer

end ScanEnv

def wantAt (off len cap : ℕ) : ℕ := min (READ_BUF_LEN - len) (cap - (off + len))

namespace Hashing

variable {δ : Type*} (job : Hashing δ)

def Fakes (off : ℕ) : Prop :=
  job.fiemap.AreaIgnored off (off + job.fakeLen) ∧ off + job.fakeLen ≤ job.filesize

instance (off : ℕ) : Decidable (job.Fakes off) := inferInstanceAs (Decidable (_ ∧ _))

def IsReadCap (off cap : ℕ) : Prop := job.fiemap.IsReadCap job.blocksize job.filesize off cap

/-- What the loop keeps true of the context and the buffer: the left over bytes are the file's at
the offset, they stay below the read cap and the end of the file, and with block hashing the
offset is on the block grid and less than a block is left over. -/
structure Sound (content : ℕ → UInt8) (ctxt : ScanCtxt) (buffer : Buffer) : Prop where
  data : buffer.data = slice content ctxt.off (ctxt.off + buffer.data.length)
  cap : ctxt.off < ctxt.readCap → job.IsReadCap ctxt.off ctxt.readCap
  below : buffer.data ≠ [] → ctxt.off + buffer.data.length ≤ ctxt.readCap
  inside : ctxt.off < job.filesize → ctxt.off + buffer.data.length < job.filesize
  grid : job.options.doBlockHash = true → ctxt.off < job.filesize → job.blocksize ∣ ctxt.off
  partial_block : job.options.doBlockHash = true → buffer.data.length < job.blocksize
  consumed : job.options.doBlockHash = false → buffer.data = []

variable {job} {content : ℕ → UInt8} {ctxt : ScanCtxt} {buffer : Buffer}

/-- With left over bytes the block at the offset is no hole, so the loop comes to fill the buffer
and never skips ahead of them. -/
theorem Sound.not_holeBlock (h : job.Sound content ctxt buffer) (hlt : ctxt.off < job.filesize)
    (hne : buffer.data ≠ []) : ¬ job.fiemap.HoleBlock job.blocksize ctxt.off := by
  have hbelow := h.below hne
  have hlen := List.length_pos_iff.mpr hne
  have hblock : job.options.doBlockHash = true := by
    by_contra hb
    exact hne (h.consumed (by simpa using hb))
  exact (h.cap (by omega)).no_hole _ le_rfl (by omega) (h.grid hblock hlt)

theorem Sound.length_le (h : job.Sound content ctxt buffer) :
    buffer.data.length < READ_BUF_LEN := by
  cases hb : job.options.doBlockHash with
  | false =>
    rw [h.consumed hb]
    simp [READ_BUF_LEN]
  | true => exact (h.partial_block hb).trans_le job.blocksize_le_readBufLen

theorem Sound.le_cap {cap : ℕ} (h : job.Sound content ctxt buffer)
    (hcap : job.IsReadCap ctxt.off cap) : ctxt.off + buffer.data.length ≤ cap := by
  by_cases hne : buffer.data = []
  · rw [hne]
    exact hcap.lt.le
  · have hbelow := h.below hne
    have hlen := List.length_pos_iff.mpr hne
    rwa [(h.cap (by omega)).unique hcap] at hbelow

/-- There is always something left to read, and room for it. -/
theorem Sound.want_pos {cap : ℕ} (h : job.Sound content ctxt buffer)
    (hlt : ctxt.off < job.filesize) (hcap : job.IsReadCap ctxt.off cap) :
    0 < wantAt ctxt.off buffer.data.length cap := by
  have hroom := h.length_le
  have hle := h.le_cap hcap
  have hin := h.inside hlt
  have hcaplt := hcap.lt
  have hbelow : ctxt.off + buffer.data.length < cap := by
    rcases hcap.stop with heq | ⟨hdvd, -⟩
    · omega
    · by_contra hge
      have hne : buffer.data ≠ [] := by
        intro hempty
        rw [hempty] at hge
        simp only [List.length_nil] at hge
        omega
      have hblock : job.options.doBlockHash = true := by
        by_contra hb
        exact hne (h.consumed (by simpa using hb))
      -- two distinct points of the grid are a block apart
      obtain ⟨k, hk⟩ := h.grid hblock hlt
      obtain ⟨m, hm⟩ := hdvd
      have hpart := h.partial_block hblock
      have hkm : k < m := by
        by_contra hmk
        have := Nat.mul_le_mul_left job.blocksize (show m ≤ k by omega)
        omega
      have := Nat.mul_le_mul_left job.blocksize (show k + 1 ≤ m from hkm)
      rw [Nat.mul_add, Nat.mul_one] at this
      omega
  unfold wantAt
  omega

theorem Sound.want_inside {cap : ℕ} (h : job.Sound content ctxt buffer)
    (hcap : job.IsReadCap ctxt.off cap) :
    ctxt.off + buffer.data.length + wantAt ctxt.off buffer.data.length cap ≤ job.filesize := by
  have hle := h.le_cap hcap
  have hcaple := hcap.le
  unfold wantAt
  omega

end Hashing

namespace ScanEnv

variable {δ ω : Type*} (env : ScanEnv δ ω)

inductive FillSpec (content : ℕ → UInt8) (ctxt : ScanCtxt) (buffer : Buffer) : Fill → Prop
  | readError (cap : ℕ) (hno : ¬ env.Fakes ctxt.off) (hcap : env.IsReadCap ctxt.off cap)
      (hread : env.pread (ctxt.off + buffer.data.length)
        (wantAt ctxt.off buffer.data.length cap) = none) :
      FillSpec content ctxt buffer .readError
  | faked (cursor : ℕ) (hfakes : env.Fakes ctxt.off) :
      FillSpec content ctxt buffer
        (.filled (env.filesize ≤ ctxt.off + env.fakeLen) { ctxt with extentCursor := cursor }
          ⟨List.replicate env.fakeLen 0, true⟩)
  | read (cursor cap stop : ℕ) (hno : ¬ env.Fakes ctxt.off) (hcap : env.IsReadCap ctxt.off cap)
      (hlo : ctxt.off + buffer.data.length ≤ stop)
      (hhi : stop ≤ ctxt.off + buffer.data.length + wantAt ctxt.off buffer.data.length cap)
      (hread : env.pread (ctxt.off + buffer.data.length)
        (wantAt ctxt.off buffer.data.length cap) =
          some (slice content (ctxt.off + buffer.data.length) stop)) :
      FillSpec content ctxt buffer
        (.filled (env.filesize ≤ stop ∨ stop = ctxt.off + buffer.data.length)
          { ctxt with readCap := cap, extentCursor := cursor } ⟨slice content ctxt.off stop, false⟩)

variable {env} {content : ℕ → UInt8} {ctxt : ScanCtxt} {buffer : Buffer}

theorem refreshReadCap_spec (h : env.Sound content ctxt buffer) (hlt : ctxt.off < env.filesize)
    (hdata : ¬ env.fiemap.HoleBlock env.blocksize ctxt.off) (cursor : ℕ) :
    ∃ cap, env.IsReadCap ctxt.off cap ∧ env.refreshReadCap { ctxt with extentCursor := cursor } =
      { ctxt with readCap := cap, extentCursor := cursor } := by
  by_cases hcap : ctxt.readCap ≤ ctxt.off
  · exact ⟨_, Fiemap.nextHoleBlock_isReadCap env.blocksize_pos cursor hlt hdata,
      by rw [refreshReadCap, if_pos hcap]⟩
  · exact ⟨ctxt.readCap, h.cap (by omega), by rw [refreshReadCap, if_neg hcap]⟩

theorem fillBuffer_spec (hreads : env.ReadsFrom content) (h : env.Sound content ctxt buffer)
    (hlt : ctxt.off < env.filesize) (hdata : ¬ env.fiemap.HoleBlock env.blocksize ctxt.off) :
    env.FillSpec content ctxt buffer (env.fillBuffer ctxt buffer) := by
  have hignored := env.fiemap.isAreaIgnored_fst ctxt.off env.fakeLen ctxt.extentCursor
  rw [fillBuffer]
  rcases harea : env.fiemap.isAreaIgnored ctxt.off env.fakeLen ctxt.extentCursor with
    ⟨ignored, cursor⟩
  rw [harea] at hignored
  subst hignored
  simp only [decide_eq_true_eq]
  by_cases hfakes : env.Fakes ctxt.off
  · rw [if_pos (by exact hfakes)]
    exact .faked cursor hfakes
  · rw [if_neg (by exact hfakes)]
    obtain ⟨cap, hcap, hrefresh⟩ := refreshReadCap_spec h hlt hdata cursor
    rw [hrefresh, readMore]
    have hbelow := h.le_cap hcap
    have hlen := h.length_le
    have hnot : ¬ cap < ctxt.off + buffer.data.length := by omega
    simp only
    rw [if_neg hnot]
    have hpos := h.want_pos hlt hcap
    have hwant : min (READ_BUF_LEN - buffer.data.length)
      (cap - (ctxt.off + buffer.data.length)) = wantAt ctxt.off buffer.data.length cap := rfl
    rw [hwant, if_pos hpos]
    cases hread : env.pread (ctxt.off + buffer.data.length)
      (wantAt ctxt.off buffer.data.length cap) with
    | none => exact .readError cap hfakes hcap hread
    | some bytes =>
      obtain ⟨hbytes, hslice⟩ := hreads _ _ _ hread
      have hstop : slice content (ctxt.off + buffer.data.length)
          (ctxt.off + buffer.data.length + bytes.length) = bytes := hslice.symm
      have hdata' : buffer.data ++ bytes =
          slice content ctxt.off (ctxt.off + buffer.data.length + bytes.length) := by
        rw [← slice_append content (show ctxt.off ≤ ctxt.off + buffer.data.length by omega)
          (show _ ≤ ctxt.off + buffer.data.length + bytes.length by omega), hstop, ← h.data]
      have hspec : env.FillSpec content ctxt buffer _ :=
        .read cursor cap (ctxt.off + buffer.data.length + bytes.length) hfakes hcap
          (by omega) (by omega) (by rw [hstop]; exact hread)
      by_cases hempty : bytes = []
      · subst hempty
        rw [List.append_nil] at hdata'
        rw [← hdata'] at hspec
        simpa [hpos] using hspec
      · have hblen := List.length_pos_iff.mpr hempty
        have hfit : ¬ READ_BUF_LEN < (buffer.data ++ bytes).length := by
          unfold wantAt at hbytes
          rw [List.length_append]
          omega
        have hne : slice content ctxt.off (ctxt.off + buffer.data.length + bytes.length) ≠ [] := by
          rw [← List.length_pos_iff, length_slice]
          omega
        have hno : ¬ ctxt.off + buffer.data.length + bytes.length =
            ctxt.off + buffer.data.length := by omega
        simp only [hempty, and_false, if_false, hfit]
        rw [hdata']
        simpa only [hne, hno, or_false] using hspec

end ScanEnv

end Oans
