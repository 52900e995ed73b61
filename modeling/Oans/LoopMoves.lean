import Mathlib.Logic.Relation
import Oans.FillBuffer

/-!
# The ways through a file

Whatever its options and its reads, a turn of the hash loop takes the offset from one place of the
file to another: by a hole run, over a faked buffer, or over bytes it has read. `Moves` lists these
moves for a file and a block size, and `Way` strings them together with the bytes they feed to the
file checksum. Ways that reach the end of the file all feed the same bytes exactly if none of them
jumps over the start of another's hole run, and none reads a byte that another fakes wrongly.
-/

namespace Oans

open Slice

inductive Stride
  | hole
  | faked
  | read

def Stride.feeds (content : ℕ → UInt8) (off stop : ℕ) : Stride → List UInt8
  | .hole => (Fed.hole off (stop - off)).raw
  | .faked => List.replicate (stop - off) 0
  | .read => slice content off stop

theorem uint64Bytes_ne_zero {n : ℕ} (hpos : 0 < n) (hlt : n < 2 ^ 64) :
    ∃ i < 8, (uint64Bytes n)[i]? ≠ some 0 := by
  by_contra hall
  push Not at hall
  have hbyte : ∀ i < 8, n / 256 ^ i % 256 = 0 := by
    intro i hi
    have hzero := hall i hi
    rw [uint64Bytes, List.getElem?_map, List.getElem?_range hi] at hzero
    simpa [UInt8.ofNat_eq_iff_mod_eq_toNat] using hzero
  have h₀ := hbyte 0 (by decide)
  have h₁ := hbyte 1 (by decide)
  have h₂ := hbyte 2 (by decide)
  have h₃ := hbyte 3 (by decide)
  have h₄ := hbyte 4 (by decide)
  have h₅ := hbyte 5 (by decide)
  have h₆ := hbyte 6 (by decide)
  have h₇ := hbyte 7 (by decide)
  norm_num at h₀ h₁ h₂ h₃ h₄ h₅ h₆ h₇ hlt
  omega

theorem length_raw_hole (off len : ℕ) : (Fed.hole off len).raw.length = 16 := by
  simp [Fed.raw, uint64Bytes]

namespace Stride

variable {content : ℕ → UInt8} {off stop : ℕ} {stride : Stride}

theorem length_feeds (content : ℕ → UInt8) (off stop : ℕ) (stride : Stride) :
    (stride.feeds content off stop).length = (stride.feeds (fun _ => 0) off stop).length := by
  cases stride <;> simp [feeds]

theorem feeds_getElem? {k : ℕ} (hstride : stride ≠ .hole) (hlt : off + k < stop)
    (hzero : content (off + k) = 0) : (stride.feeds content off stop)[k]? = some 0 := by
  cases stride with
  | hole => exact absurd rfl hstride
  | faked =>
    rw [feeds, List.getElem?_replicate, if_pos (by omega)]
  | read =>
    rw [feeds, slice, List.getElem?_map, List.getElem?_range' (by omega), Option.map_some,
      Nat.one_mul, hzero]

theorem length_feeds_of_ne (hstride : stride ≠ .hole) :
    (stride.feeds content off stop).length = stop - off := by
  cases stride with
  | hole => exact absurd rfl hstride
  | faked => simp [feeds]
  | read => simp [feeds]

end Stride

namespace Hashing

variable {δ : Type*} (job : Hashing δ) (content : ℕ → UInt8)

inductive Moves : ℕ → ℕ → Stride → Prop
  | hole {off : ℕ} (hlt : off < job.filesize)
      (hhole : job.fiemap.HoleBlock job.blocksize off) :
      Moves off (off + job.fiemap.holeRun job.blocksize job.filesize off) .hole
  | faked {off : ℕ} (hlt : off < job.filesize)
      (hdata : ¬ job.fiemap.HoleBlock job.blocksize off) (hfakes : job.Fakes off) :
      Moves off (off + job.fakeLen) .faked
  | read {off cap stop : ℕ} (hlt : off < job.filesize)
      (hdata : ¬ job.fiemap.HoleBlock job.blocksize off) (hno : ¬ job.Fakes off)
      (hcap : job.IsReadCap off cap) (hoff : off < stop) (hcapped : stop ≤ cap)
      (hfits : stop ≤ off + READ_BUF_LEN) : Moves off stop .read

inductive Way : ℕ → List UInt8 → Prop
  | start : Way 0 []
  | move {off stop : ℕ} {stride : Stride} {raw : List UInt8} (head : Way off raw)
      (hmove : job.Moves off stop stride) : Way stop (raw ++ stride.feeds content off stop)

def Comes (off : ℕ) : Prop := Relation.ReflTransGen (fun a b => ∃ stride, job.Moves a b stride) 0 off

def Ends (off : ℕ) : Prop :=
  Relation.ReflTransGen (fun a b => ∃ stride, job.Moves a b stride) off job.filesize

structure OnWay (off stop : ℕ) (stride : Stride) : Prop where
  comes : job.Comes off
  moves : job.Moves off stop stride
  ends : job.Ends stop

/-- No move jumps over the start of a hole run below `m`. -/
def HolesMet (m : ℕ) : Prop := ∀ ⦃p p' off stop stride⦄, job.OnWay p p' .hole →
  job.OnWay off stop stride → p < m → off < p → stop ≤ p

/-- The ways that reach the end of the file agree on the hole runs, and what one of them fakes and
another reads is 0. -/
structure Steady : Prop where
  holes_met : job.HolesMet job.filesize
  faked_zero : ∀ ⦃a a' b b' x⦄, job.OnWay a a' .faked → job.OnWay b b' .read →
    a ≤ x → x < a' → b ≤ x → x < b' → content x = 0

variable {job content} {off stop p p' m : ℕ} {stride : Stride} {raw : List UInt8}

theorem Moves.lt_filesize (h : job.Moves off stop stride) : off < job.filesize := by
  cases h <;> assumption

theorem Moves.lt (h : job.Moves off stop stride) : off < stop := by
  cases h with
  | hole hlt hhole =>
    have := (job.fiemap.holeRun_pos_iff job.blocksize_pos hlt).mpr hhole
    omega
  | faked =>
    have := job.blocksize_le_fakeLen
    have := job.blocksize_pos
    omega
  | read => assumption

theorem Moves.of_hole (h : job.Moves off stop .hole) :
    job.fiemap.HoleBlock job.blocksize off ∧
      stop = off + job.fiemap.holeRun job.blocksize job.filesize off := by
  cases h with
  | hole hlt hhole => exact ⟨hhole, rfl⟩

/-- Where a hole run starts there is no other move. -/
theorem Moves.hole_unique (h : job.Moves off p .hole) (h' : job.Moves off stop stride) :
    stride = .hole ∧ stop = p := by
  obtain ⟨hhole, rfl⟩ := h.of_hole
  cases h' with
  | hole => exact ⟨rfl, rfl⟩
  | faked _ hdata => exact absurd hhole hdata
  | read _ hdata => exact absurd hhole hdata

theorem Moves.congr {job' : Hashing δ} (h : job.Moves off stop stride)
    (hfile : job.file = job'.file)
    (hblock : job.options.blocksize = job'.options.blocksize) : job'.Moves off stop stride := by
  rcases job with ⟨⟨b, _, _, _, _⟩, file, _⟩
  rcases job' with ⟨⟨b', _, _, _, _⟩, file', _⟩
  dsimp only at hfile hblock
  subst hfile hblock
  cases h with
  | hole hlt hhole => exact .hole hlt hhole
  | faked hlt hdata hfakes => exact .faked hlt hdata hfakes
  | read hlt hdata hno hcap hoff hcapped hfits => exact .read hlt hdata hno hcap hoff hcapped hfits

theorem Way.congr {job' : Hashing δ} (h : job.Way content off raw) (hfile : job.file = job'.file)
    (hblock : job.options.blocksize = job'.options.blocksize) : job'.Way content off raw := by
  induction h with
  | start => exact .start
  | move _ hmove ih => exact .move ih (hmove.congr hfile hblock)

theorem Way.comes (h : job.Way content off raw) : job.Comes off := by
  induction h with
  | start => exact .refl
  | move _ hmove ih => exact ih.tail ⟨_, hmove⟩

theorem Comes.way (content : ℕ → UInt8) (h : job.Comes off) : ∃ raw, job.Way content off raw := by
  induction h with
  | refl => exact ⟨_, .start⟩
  | tail _ hmove ih =>
    obtain ⟨raw, hway⟩ := ih
    obtain ⟨stride, hmove⟩ := hmove
    exact ⟨_, .move hway hmove⟩

theorem Ends.rest (content : ℕ → UInt8) (h : job.Ends off) :
    ∃ rest, ∀ raw, job.Way content off raw → job.Way content job.filesize (raw ++ rest) := by
  induction h using Relation.ReflTransGen.head_induction_on with
  | refl => exact ⟨[], fun raw hway => (List.append_nil raw).symm ▸ hway⟩
  | @head a b hmove _ ih =>
    obtain ⟨rest, hrest⟩ := ih
    obtain ⟨stride, hmove⟩ := hmove
    refine ⟨stride.feeds content a b ++ rest, fun raw hway => ?_⟩
    rw [← List.append_assoc]
    exact hrest _ (.move hway hmove)

theorem HolesMet.mono {n : ℕ} (h : job.HolesMet m) (hle : n ≤ m) : job.HolesMet n :=
  fun _ _ _ _ _ hp hmove hlt => h hp hmove (hlt.trans_le hle)

/-- A way that has come past the start of a hole run has taken it. -/
theorem OnWay.le_of_comes (hp : job.OnWay p p' .hole) (hmet : job.HolesMet off)
    (hcomes : job.Comes off) (hends : job.Ends off) (hlt : p < off) : p' ≤ off := by
  induction hcomes with
  | refl => omega
  | @tail b c hcomes hmove ih =>
    obtain ⟨stride, hmove⟩ := hmove
    have hbc := hmove.lt
    rcases lt_trichotomy p b with hpb | rfl | hbp
    · exact (ih (hmet.mono hbc.le) (.head ⟨_, hmove⟩ hends) hpb).trans hbc.le
    · exact (hp.moves.hole_unique hmove).2.ge
    · have := hmet hp ⟨hcomes, hmove, hends⟩ hlt hbp
      omega

section Stream

variable (job) (byte : ℕ → UInt8)

open Classical in
/-- What a way feeds for position `x`: a descriptor where a hole run starts, nothing further inside
it, and a byte elsewhere. -/
noncomputable def streamAt (x : ℕ) : List UInt8 :=
  if ∃ stop, job.OnWay x stop .hole then
    (Fed.hole x (job.fiemap.holeRun job.blocksize job.filesize x)).raw
  else if ∃ off stop, job.OnWay off stop .hole ∧ off < x ∧ x < stop then []
  else [byte x]

variable {job byte}

theorem streamAt_of_move {x : ℕ} (h : job.OnWay off stop stride) (hstride : stride ≠ .hole)
    (hmet : job.HolesMet (x + 1)) (hle : off ≤ x) (hlt : x < stop) :
    job.streamAt byte x = [byte x] := by
  have hoff : ∀ p', ¬ job.OnWay off p' .hole := fun p' hp =>
    hstride (hp.moves.hole_unique h.moves).1
  have hends : job.Ends off := .head ⟨_, h.moves⟩ h.ends
  have hstart : ¬ ∃ p', job.OnWay x p' .hole := by
    rintro ⟨p', hx⟩
    rcases hle.eq_or_lt with rfl | hlt'
    · exact hoff p' hx
    · have := hmet hx h (Nat.lt_succ_self x) hlt'
      omega
  have hinside : ¬ ∃ p p', job.OnWay p p' .hole ∧ p < x ∧ x < p' := by
    rintro ⟨p, p', hp, hpx, hxp⟩
    rcases lt_trichotomy p off with hpo | rfl | hop
    · have := hp.le_of_comes (hmet.mono (by omega)) h.comes hends hpo
      omega
    · exact hoff p' hp
    · have := hmet hp h (by omega) hop
      omega
  rw [streamAt, if_neg hstart, if_neg hinside]

theorem streamAt_of_hole (h : job.OnWay off stop .hole) :
    job.streamAt byte off = (Fed.hole off (stop - off)).raw := by
  rw [streamAt, if_pos ⟨stop, h⟩, h.moves.of_hole.2, Nat.add_sub_cancel_left]

theorem streamAt_inside {x : ℕ} (h : job.OnWay off stop .hole) (hmet : job.HolesMet stop)
    (hlt : off < x) (hlt' : x < stop) : job.streamAt byte x = [] := by
  have hstart : ¬ ∃ p', job.OnWay x p' .hole := by
    rintro ⟨p', hx⟩
    have := hmet hx h hlt' hlt
    omega
  rw [streamAt, if_neg hstart, if_pos ⟨off, stop, h, hlt, hlt'⟩]

theorem range_eq_append {a b : ℕ} (h : a ≤ b) :
    List.range b = List.range a ++ List.range' a (b - a) := by
  have happend := @List.range'_append_1 0 a (b - a)
  rw [Nat.zero_add, show a + (b - a) = b by omega] at happend
  rw [List.range_eq_range', List.range_eq_range', happend]

/-- Over bytes the stream is a slice. -/
theorem flatMap_streamAt {a b : ℕ} (h : ∀ x, a ≤ x → x < b → job.streamAt byte x = [byte x]) :
    (List.range' a (b - a)).flatMap (job.streamAt byte) = slice byte a b := by
  rw [slice, List.map_eq_flatMap]
  refine List.flatMap_congr fun x hx => ?_
  rw [List.mem_range'_1] at hx
  exact h x hx.1 (by omega)

/-- Where the bytes are what faked buffers and reads make them, a way feeds the stream. -/
theorem Way.eq_stream (h : job.Way content off raw) (hmet : job.HolesMet off)
    (hends : job.Ends off)
    (hfaked : ∀ a b x, job.OnWay a b .faked → a ≤ x → x < b → byte x = 0)
    (hread : ∀ a b x, job.OnWay a b .read → a ≤ x → x < b → byte x = content x) :
    raw = (List.range off).flatMap (job.streamAt byte) := by
  induction h with
  | start => rfl
  | @move off stop stride raw head hmove ih =>
    have hon : job.OnWay off stop stride := ⟨head.comes, hmove, hends⟩
    have hlt := hmove.lt
    rw [ih (hmet.mono hlt.le) (.head ⟨_, hmove⟩ hends), range_eq_append hlt.le,
      List.flatMap_append]
    congr 1
    have hbytes : stride ≠ .hole → (List.range' off (stop - off)).flatMap (job.streamAt byte) =
        slice byte off stop := fun hstride => flatMap_streamAt fun x hle hlt' =>
      streamAt_of_move hon hstride (hmet.mono hlt') hle hlt'
    cases stride with
    | hole =>
      rw [show stop - off = stop - off - 1 + 1 by omega, List.range'_succ, List.flatMap_cons,
        streamAt_of_hole hon]
      have hrest : (List.range' (off + 1) (stop - off - 1)).flatMap (job.streamAt byte) = [] := by
        refine List.flatMap_eq_nil_iff.mpr fun x hx => ?_
        rw [List.mem_range'_1] at hx
        exact streamAt_inside hon hmet (by omega) (by omega)
      rw [hrest, List.append_nil, Stride.feeds]
    | faked =>
      rw [hbytes nofun, Stride.feeds]
      exact (slice_eq_replicate fun x hle hlt' => hfaked off stop x hon hle hlt').symm
    | read =>
      rw [hbytes nofun, Stride.feeds]
      exact slice_congr fun x hle hlt' => (hread off stop x hon hle hlt').symm

end Stream

theorem Steady.way_unique (h : job.Steady content) {raw' : List UInt8}
    (hway : job.Way content job.filesize raw) (hway' : job.Way content job.filesize raw') :
    raw = raw' := by
  classical
  obtain ⟨byte, hbyte⟩ : ∃ byte : ℕ → UInt8, byte = fun x =>
      if ∃ a b, job.OnWay a b .faked ∧ a ≤ x ∧ x < b then 0 else content x := ⟨_, rfl⟩
  have hfaked : ∀ a b x, job.OnWay a b .faked → a ≤ x → x < b → byte x = 0 := by
    intro a b x hon hle hlt
    simp only [hbyte]
    exact if_pos ⟨a, b, hon, hle, hlt⟩
  have hread : ∀ a b x, job.OnWay a b .read → a ≤ x → x < b → byte x = content x := by
    intro a b x hon hle hlt
    simp only [hbyte]
    split_ifs with hfake
    · obtain ⟨a', b', hon', hle', hlt'⟩ := hfake
      exact (h.faked_zero hon' hon hle' hlt' hle hlt).symm
    · rfl
  rw [hway.eq_stream h.holes_met .refl hfaked hread,
    hway'.eq_stream h.holes_met .refl hfaked hread]

/-! ### Where the ways feed different bytes -/

theorem Way.zeroed (h : job.Way content off raw) :
    ∃ raw', job.Way (fun _ => 0) off raw' ∧ raw'.length = raw.length := by
  induction h with
  | start => exact ⟨_, .start, rfl⟩
  | @move off stop stride raw _ hmove ih =>
    obtain ⟨raw', hway, hlen⟩ := ih
    refine ⟨_, .move hway hmove, ?_⟩
    rw [List.length_append, List.length_append, hlen, Stride.length_feeds content]

noncomputable def place (job : Hashing δ) (x : ℕ) : ℕ :=
  ((List.range x).flatMap (job.streamAt fun _ => 0)).length

theorem Way.length_eq (h : job.Way content off raw) (hmet : job.HolesMet off)
    (hends : job.Ends off) : raw.length = job.place off := by
  obtain ⟨raw', hway, hlen⟩ := h.zeroed
  rw [← hlen, hway.eq_stream hmet hends (fun _ _ _ _ _ _ => rfl) fun _ _ _ _ _ _ => rfl, place]

theorem place_of_move {x : ℕ} (h : job.OnWay off stop stride) (hstride : stride ≠ .hole)
    (hmet : job.HolesMet x) (hle : off ≤ x) (hle' : x ≤ stop) :
    job.place x = job.place off + (x - off) := by
  have hbytes := @flatMap_streamAt _ job (fun _ => 0) off x fun y hy hyx =>
    streamAt_of_move h hstride (hmet.mono hyx) hy (by omega)
  rw [place, place, range_eq_append hle, List.flatMap_append, List.length_append, hbytes,
    length_slice]

/-- Hole runs that start near each other in one hole end alike. -/
theorem Moves.hole_near {x : ℕ} (hp : job.Moves p p' .hole) (hpx : p < x)
    (hnear : x < p + job.blocksize) (hx : x < job.filesize)
    (hhole : job.fiemap.HoleBlock job.blocksize x) : job.Moves x p' .hole := by
  obtain ⟨hholep, rfl⟩ := hp.of_hole
  have hrun := (job.fiemap.holeRun_pos_iff job.blocksize_pos hx).mpr hhole
  have hrunp := (job.fiemap.holeRun_pos_iff job.blocksize_pos hp.lt_filesize).mpr hholep
  have hmove := Moves.hole hx hhole
  suffices p + job.fiemap.holeRun job.blocksize job.filesize p =
      x + job.fiemap.holeRun job.blocksize job.filesize x by
    rwa [this]
  unfold Fiemap.HoleBlock Fiemap.blockIsHole at hhole hholep
  unfold Fiemap.holeRun at hrun hrunp ⊢
  cases hnext : job.fiemap.nextExtent p with
  | none =>
    have hnone : job.fiemap.nextExtent x = none := by
      rw [Fiemap.nextExtent, List.find?_eq_none] at hnext ⊢
      intro e he
      have := hnext e he
      simp only [decide_eq_true_eq] at this ⊢
      omega
    simp only [hnone]
    have := hp.lt_filesize
    omega
  | some e =>
    rw [hnext, decide_eq_true_eq] at hholep
    have hpos := Fiemap.feEnd_pos (Fiemap.nextExtent_mem hnext)
    have hsame := Fiemap.nextExtent_congr hnext hpx.le (by omega)
    rw [hsame, decide_eq_true_eq] at hhole
    simp only [hnext, hsame, hhole, hholep, if_true] at hrun hrunp ⊢
    omega

section Unique

variable (hsize : job.filesize < 2 ^ 64) (hzero : ∀ x, job.fiemap.Hole x → content x = 0)
  (huniq : ∀ raw raw', job.Way content job.filesize raw → job.Way content job.filesize raw' →
    raw = raw')

include hsize hzero huniq

/-- A way that jumps over the start of a hole run feeds zeroes where another feeds a descriptor. -/
theorem not_jumped {x : ℕ} {rawp : List UInt8} (hp : job.OnWay p p' .hole)
    (hway : job.Way content p rawp) (hends : job.Ends x) (hx : job.Way content x raw)
    (hpos : 0 < p) (hpx : p < x) (hlen : raw.length = rawp.length + (x - p))
    (hbytes : ∀ i < 8, i < x - p → raw[rawp.length + i]? = some 0) : False := by
  obtain ⟨rest, hrest⟩ := hp.ends.rest content
  have hdesc := hrest _ (.move hway hp.moves)
  -- eight zeroes are not the offset in the descriptor
  have hfar : ∀ {y raw'}, job.Ends y → job.Way content y raw' → p + 8 ≤ y →
      (∀ i < 8, i < y - p → raw'[rawp.length + i]? = some 0) →
      raw'.length = rawp.length + (y - p) → False := by
    intro y raw' hends hy hle hbytes hlen
    obtain ⟨rest', hrest'⟩ := hends.rest content
    have heq := huniq _ _ (hrest' _ hy) hdesc
    obtain ⟨i, hi, hne⟩ := uint64Bytes_ne_zero hpos (hp.moves.lt_filesize.trans hsize)
    refine hne ?_
    have hat := congrArg (fun l => l[rawp.length + i]?) heq
    rw [List.getElem?_append_left (by omega), hbytes i hi (by omega), List.append_assoc,
      List.getElem?_append_right (by omega), Nat.add_sub_cancel_left, Stride.feeds, Fed.raw,
      List.append_assoc, List.getElem?_append_left (by simpa [uint64Bytes] using hi)] at hat
    exact hat.symm
  have hblock := job.options.blocksize.min_le
  unfold MIN_BLOCKSIZE at hblock
  have hbs : 4 * 1024 ≤ job.blocksize := hblock
  have hhole := hp.moves.of_hole.1
  induction hends using Relation.ReflTransGen.head_induction_on generalizing raw with
  | refl =>
    by_cases hle : p + 8 ≤ job.filesize
    · exact hfar .refl hx hle hbytes hlen
    · have heq := congrArg List.length (huniq _ _ hx hdesc)
      rw [List.length_append, List.length_append, Stride.feeds, length_raw_hole] at heq
      omega
  | @head a b hmove hends ih =>
    by_cases hle : p + 8 ≤ a
    · exact hfar (.head hmove hends) hx hle hbytes hlen
    obtain ⟨stride, hmove⟩ := hmove
    by_cases hhole' : job.fiemap.HoleBlock job.blocksize a
    · -- it may as well go on like the other way, with a descriptor that comes later
      have hnear := hp.moves.hole_near hpx (by omega) hmove.lt_filesize hhole'
      have heq := congrArg List.length (huniq _ _ (hrest _ (.move hx hnear)) hdesc)
      rw [List.length_append, List.length_append, List.length_append, List.length_append,
        Stride.feeds, Stride.feeds, length_raw_hole, length_raw_hole] at heq
      omega
    · have hstride : stride ≠ .hole := by
        rintro rfl
        exact hhole' hmove.of_hole.1
      have hab := hmove.lt
      refine ih (.move hx hmove) (hpx.trans hab) ?_ fun i hi hib => ?_
      · rw [List.length_append, Stride.length_feeds_of_ne hstride]
        omega
      · rcases Nat.lt_or_ge i (a - p) with hlt | hge
        · rw [List.getElem?_append_left (by omega)]
          exact hbytes i hi hlt
        · rw [List.getElem?_append_right (by omega)]
          refine Stride.feeds_getElem? hstride (by omega) (hzero _ ?_)
          exact (Fiemap.holeBlock_iff_forall_hole job.blocksize_pos).mp hhole _ (by omega)
            (by omega)

theorem holesMet_of_unique (m : ℕ) : job.HolesMet m := by
  induction m with
  | zero => exact fun _ _ _ _ _ _ _ hlt => absurd hlt (Nat.not_lt_zero _)
  | succ m ih =>
    intro p p' off stop stride hp hmove hpm hlt
    rcases Nat.lt_succ_iff_lt_or_eq.mp hpm with hpm | rfl
    · exact ih hp hmove hpm hlt
    by_contra hjump
    have hendsp : job.Ends p := .head ⟨_, hp.moves⟩ hp.ends
    have hendso : job.Ends off := .head ⟨_, hmove.moves⟩ hmove.ends
    have hstride : stride ≠ .hole := by
      rintro rfl
      have := hmove.le_of_comes ih hp.comes hendsp hlt
      omega
    obtain ⟨rawp, hwayp⟩ := hp.comes.way content
    obtain ⟨rawo, hwayo⟩ := hmove.comes.way content
    have hplace := place_of_move hmove hstride ih hlt.le (by omega)
    rw [← hwayp.length_eq ih hendsp, ← hwayo.length_eq (ih.mono hlt.le) hendso] at hplace
    have hhole := hp.moves.of_hole.1
    have hblock := job.options.blocksize.min_le
    unfold MIN_BLOCKSIZE at hblock
    have hbs : 4 * 1024 ≤ job.blocksize := hblock
    refine not_jumped hsize hzero huniq hp hwayp hmove.ends (.move hwayo hmove.moves) (by omega)
      (by omega) ?_ fun i hi his => ?_
    · rw [List.length_append, Stride.length_feeds_of_ne hstride]
      omega
    · rw [List.getElem?_append_right (by omega)]
      refine Stride.feeds_getElem? hstride (by omega) (hzero _ ?_)
      exact (Fiemap.holeBlock_iff_forall_hole job.blocksize_pos).mp hhole _ (by omega) (by omega)

theorem steady_of_unique : job.Steady content where
  holes_met := holesMet_of_unique hsize hzero huniq _
  faked_zero := by
    intro a a' b b' x ha hb hax hxa hbx hxb
    have hmet := holesMet_of_unique hsize hzero huniq
    have hat : ∀ {off stop stride}, job.OnWay off stop stride → stride ≠ .hole → off ≤ x →
        x < stop → ∃ raw, job.Way content job.filesize raw ∧
          raw[job.place x]? = (stride.feeds content off stop)[x - off]? := by
      intro off stop stride hon hstride hle hlt
      obtain ⟨raw, hway⟩ := hon.comes.way content
      obtain ⟨rest, hrest⟩ := hon.ends.rest content
      refine ⟨_, hrest _ (.move hway hon.moves), ?_⟩
      rw [place_of_move hon hstride (hmet _) hle hlt.le,
        ← hway.length_eq (hmet _) (.head ⟨_, hon.moves⟩ hon.ends), List.append_assoc,
        List.getElem?_append_right (by omega), Nat.add_sub_cancel_left, List.getElem?_append_left]
      rw [Stride.length_feeds_of_ne hstride]
      omega
    obtain ⟨rawa, hwaya, hfake⟩ := hat ha nofun hax hxa
    obtain ⟨rawb, hwayb, hread⟩ := hat hb nofun hbx hxb
    rw [huniq _ _ hwaya hwayb, hread, Stride.feeds, Stride.feeds, List.getElem?_replicate,
      if_pos (by omega), slice, List.getElem?_map, List.getElem?_range' (by omega),
      Option.map_some, Nat.one_mul, Nat.add_sub_cancel' hbx, Option.some.injEq] at hfake
    exact hfake

end Unique

/-- In particular the ways agree where no record has skip flags and every hole of a block or more
behind a record starts on the block grid. -/
theorem steady_of_holes_on_grid (hplain : ∀ e ∈ job.fiemap.fmExtents, e.skipped = false)
    (hgrid : ∀ e ∈ job.fiemap.fmExtents, e.feEnd < job.filesize →
      job.fiemap.HoleBlock job.blocksize e.feEnd → job.blocksize ∣ e.feEnd) :
    job.Steady content := by
  classical
  have hfakes : ∀ off, ¬ job.Fakes off := by
    rintro off ⟨⟨hall, e, he, hover⟩, -⟩
    have hskip := hall e he hover
    rw [hplain e he] at hskip
    cases hskip
  have hmet : ∀ m, job.HolesMet m := by
    intro m
    induction m with
    | zero => exact fun _ _ _ _ _ _ _ hlt => absurd hlt (Nat.not_lt_zero _)
    | succ m ih =>
      intro p p' off stop stride hp hmove hpm hlt
      rcases Nat.lt_succ_iff_lt_or_eq.mp hpm with hpm | rfl
      · exact ih hp hmove hpm hlt
      have hholes := (Fiemap.holeBlock_iff_forall_hole job.blocksize_pos).mp hp.moves.of_hole.1
      by_contra hjump
      cases hmove.moves with
      | hole =>
        exact hjump (hmove.le_of_comes ih hp.comes (.head ⟨_, hp.moves⟩ hp.ends) hlt)
      | faked _ _ hfake => exact hfakes off hfake
      | read _ hdata _ hcap _ hcapped =>
        -- the last position before `p` that a record holds, and the record's end behind it
        rw [Fiemap.holeBlock_iff_forall_hole job.blocksize_pos] at hdata
        push Not at hdata
        obtain ⟨q, hoq, hqo, hq⟩ := hdata
        have hqp : q ≤ p - 1 := by
          by_contra hge
          exact hq (hholes q (by omega) (by omega))
        have hspec := @Nat.findGreatest_spec q (fun y => ¬ job.fiemap.Hole y) _ (p - 1) hqp hq
        have hlast := @Nat.le_findGreatest q (fun y => ¬ job.fiemap.Hole y) _ (p - 1) hqp hq
        have hle := @Nat.findGreatest_le (fun y => ¬ job.fiemap.Hole y) _ (p - 1)
        have hafter : ∀ y, Nat.findGreatest (fun y => ¬ job.fiemap.Hole y) (p - 1) < y →
            y < p → job.fiemap.Hole y := fun y hy hyp =>
          not_not.mp (Nat.findGreatest_is_greatest hy (by omega))
        generalize Nat.findGreatest (fun y => ¬ job.fiemap.Hole y) (p - 1) = x at *
        unfold Fiemap.Hole at hspec
        push Not at hspec
        obtain ⟨e, he, hlo, hhi⟩ := hspec
        have hbehind : ∀ y, x < y → y < p + job.blocksize → job.fiemap.Hole y := fun y hy hyp => by
          rcases Nat.lt_or_ge y p with hyp' | hpy
          · exact hafter y hy hyp'
          · exact hholes y hpy hyp
        have hend : e.feEnd = x + 1 := by
          by_contra hne
          have hb := job.blocksize_pos
          exact hbehind (x + 1) (by omega) (by omega) e he ⟨by omega, by omega⟩
        have hhole : job.fiemap.HoleBlock job.blocksize e.feEnd :=
          (Fiemap.holeBlock_iff_forall_hole job.blocksize_pos).mpr fun y hy hyb =>
            hbehind y (by omega) (by omega)
        have hcaple := hcap.le
        exact hcap.no_hole e.feEnd (by omega) (by omega) (hgrid e he (by omega) hhole) hhole
  exact ⟨hmet _, fun a a' _ _ _ ha => by
    cases ha.moves with
    | faked _ _ hfake => exact absurd hfake (hfakes a)⟩

end Hashing

end Oans
