import Oans.HoleSkip
import Oans.Slice

/-!
# The state of one file's hashing

What `csum_whole_file()` carries from pass to pass: the scan context with its two running
checksums, the read buffer, and the rows staged for the hashfile. A running checksum is kept as
what has been added to it; its digest is a parameter, the hash of those bytes.
-/

namespace Oans

def READ_BUF_LEN : ℕ := 1024 * 1024

inductive Fed
  | bytes (data : List UInt8)
  | hole (off len : ℕ)
  deriving DecidableEq, Repr

def uint64Bytes (n : ℕ) : List UInt8 := (List.range 8).map fun i => UInt8.ofNat (n / 256 ^ i)

def Fed.raw : Fed → List UInt8
  | .bytes data => data
  | .hole off len => uint64Bytes off ++ uint64Bytes len

structure Options where
  blocksize : Blocksize
  doBlockHash : Bool
  skipZeroes : Bool
  onlyWholeFiles : Bool
  oldHoleDigests : Bool

structure Pacing where
  /-- a hashfile was given, so checkpoints are worth writing -/
  hashfile : Bool
  blockBatchMax : ℕ
  checkpointInterval : ℕ
  checkpointStopAfter : ℕ

structure FileToScan where
  filesize : ℕ
  mtime : ℕ
  fiemap : Fiemap

structure BlockCsum (δ : Type*) where
  loff : ℕ
  digest : δ
  deriving DecidableEq, Repr

structure ExtentCsum (δ : Type*) where
  loff : ℕ
  poff : ℕ
  len : ℕ
  digest : δ
  deriving DecidableEq, Repr

structure Rows (δ : Type*) where
  blocks : List (BlockCsum δ)
  extents : List (ExtentCsum δ)
  deriving DecidableEq, Repr

instance {δ : Type*} : EmptyCollection (Rows δ) := ⟨⟨[], []⟩⟩

instance {δ : Type*} : Append (Rows δ) :=
  ⟨fun r r' => ⟨r.blocks ++ r'.blocks, r.extents ++ r'.extents⟩⟩

theorem Rows.append_empty {δ : Type*} (r : Rows δ) : r ++ (∅ : Rows δ) = r :=
  congrArg₂ Rows.mk (List.append_nil _) (List.append_nil _)

theorem Rows.append_assoc {δ : Type*} (r r' r'' : Rows δ) : r ++ r' ++ r'' = r ++ (r' ++ r'') :=
  congrArg₂ Rows.mk (List.append_assoc ..) (List.append_assoc ..)

/-- The rows staged in memory. A staged extent of length 0, which is never stored, is `none`. -/
structure Hashes (δ : Type*) where
  blocks : List (BlockCsum δ)
  blocksFlushed : ℕ
  extents : List (Option (ExtentCsum δ))

def Hashes.empty {δ : Type*} : Hashes δ := ⟨[], 0, []⟩

structure ScanCtxt where
  off : ℕ
  readCap : ℕ
  extentCursor : ℕ
  fileCsum : List Fed
  extentCsum : Option (List UInt8)

structure Buffer where
  data : List UInt8
  faked : Bool

structure ScanCheckpoint where
  loff : ℕ
  size : ℕ
  mtime : ℕ
  fileState : List Fed
  /-- the extent being hashed: its record's offset and length, and what its digest holds -/
  extState : Option (ℕ × ℕ × List UInt8)
  /-- saved by a binary that hashed holes into extents -/
  v1 : Bool
  deriving DecidableEq, Repr

/-- What the loop asks of the hashfile. An `Int` is the C return value: 0, a positive SQLite code
or a negative errno. -/
structure Hashfile (δ ω : Type*) where
  flushBlockHashes : Hashes δ → ω → ℤ × Hashes δ × ω
  storeCheckpoint : Hashes δ → ScanCheckpoint → ω → ℤ × Hashes δ × ω
  batchLost : ω → Bool

/-- What is hashed, and how: the same in every run that agrees on the options. -/
structure Hashing (δ : Type*) where
  options : Options
  file : FileToScan
  xxh : List UInt8 → δ

/-- Everything one call of `csum_whole_file()` is run against. `pread` answers by position: a scan
never reads at one position twice, except after a read that returned nothing. -/
structure ScanEnv (δ ω : Type*) extends Hashing δ where
  pacing : Pacing
  pread : ℕ → ℕ → Option (List UInt8)
  interrupted : ℕ → Bool
  hashfile : Hashfile δ ω

namespace Hashing

variable {δ : Type*} (job : Hashing δ)

def blocksize : ℕ := job.options.blocksize.bytes

def filesize : ℕ := job.file.filesize

def fiemap : Fiemap := job.file.fiemap

theorem blocksize_pos : 0 < job.blocksize := job.options.blocksize.pos

/-- The bytes a faked buffer stands for: a whole number of blocks. -/
def fakeLen : ℕ := READ_BUF_LEN - READ_BUF_LEN % job.blocksize

theorem blocksize_le_readBufLen : job.blocksize ≤ READ_BUF_LEN := job.options.blocksize.le_max

theorem fakeLen_eq : job.fakeLen = READ_BUF_LEN / job.blocksize * job.blocksize := by
  have := Nat.div_add_mod' READ_BUF_LEN job.blocksize
  unfold fakeLen
  omega

theorem dvd_fakeLen : job.blocksize ∣ job.fakeLen := by
  rw [fakeLen_eq]
  exact Nat.dvd_mul_left _ _

theorem blocksize_le_fakeLen : job.blocksize ≤ job.fakeLen := by
  have h := job.blocksize_le_readBufLen
  rw [fakeLen_eq]
  exact Nat.le_mul_of_pos_left _ (Nat.div_pos h job.blocksize_pos)

end Hashing

namespace ScanEnv

variable {δ ω : Type*} (env : ScanEnv δ ω)

def ReadsFrom (content : ℕ → UInt8) : Prop :=
  ∀ pos want data, env.pread pos want = some data →
    data.length ≤ want ∧ data = Slice.slice content pos (pos + data.length)

def ReadsSomething : Prop :=
  ∀ pos want, 0 < want → pos + want ≤ env.filesize →
    ∃ data, env.pread pos want = some data ∧ data ≠ []

end ScanEnv

end Oans
