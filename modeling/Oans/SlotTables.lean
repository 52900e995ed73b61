import Oans.OpenAddressing
import Oans.ResultsTree

/-!
# Seen inodes and layout donors

Two open-addressing tables that only grow. The set of inodes the scan has met keeps filling up when
it cannot grow, up to the last free slot; the layout donors take none then. Whatever allocations
fail, what was accepted is found, and the first entry accepted for a key is the one.
-/

namespace Oans

open OpenAddressing

structure Growth where
  slots : Bool
  used : Bool
  deriving DecidableEq, Repr

/-- `calloc()`, which refuses what cannot be addressed. -/
def callocs (n size : ℕ) (answer : Bool) : Bool := answer && decide (n * size < 2 ^ 64)

section Tables

variable {ε κ : Type*} [DecidableEq κ] (key : ε → κ) (hash : κ → ℕ) (zero : ε) (size : ℕ)

/-- `seen_grow()` and `donor_grow()`: twice the slots, or the table as it was. -/
def growTable (t : Table ε) (g : Growth) : Option (Bool × Table ε) :=
  let newcap := wrap64 (t.cap * 2)
  if callocs newcap size g.slots && callocs ((newcap + 63) / 64) 8 g.used then
    (t.rehash key hash zero newcap).map fun new => (true, new)
  else some (false, t)

/-- One more entry would fill about 70% of the table. -/
def nearlyFull {ε : Type*} (t : Table ε) : Bool :=
  decide (wrap64 (t.cap * 7) ≤ wrap64 ((t.count + 1) * 10))

end Tables

structure InoKey where
  ino : BitVec 64
  subvol : BitVec 64
  deriving DecidableEq, Repr

def inoHash (k : InoKey) : BitVec 64 :=
  let x := (k.ino * 0x9E3779B97F4A7C15#64) ^^^ (k.subvol + 0x9E3779B97F4A7C15#64)
  let x := (x ^^^ (x >>> 30)) * 0xBF58476D1CE4E5B9#64
  let x := (x ^^^ (x >>> 27)) * 0x94D049BB133111EB#64
  x ^^^ (x >>> 31)

abbrev SeenInodes := Table InoKey

namespace SeenInodes

def home (k : InoKey) : ℕ := (inoHash k).toNat

/-- `seen_inodes_init()`, which ends the run if it cannot allocate. -/
def init : SeenInodes := Table.empty ⟨0, 0⟩ 1024

/-- `seen_inode()`; none where it does not return. -/
def seenInode (t : SeenInodes) (k : InoKey) : Option Bool :=
  if t.cap = 0 then some false else (t.search id home k).map Prod.snd

def seenInsert (t : SeenInodes) (k : InoKey) : Option SeenInodes := t.insert id home k

def seenGrow (t : SeenInodes) (g : Growth) : Option (Bool × SeenInodes) :=
  growTable id home ⟨0, 0⟩ 16 t g

/-- `mark_inode_seen()`, and whether it goes on to insert the inode. -/
def markInodeSeen (t : SeenInodes) (k : InoKey) (g : Growth) : Option (Bool × SeenInodes) :=
  if t.cap = 0 then some (false, t)
  else if nearlyFull t then
    match seenGrow t g with
    | none => none
    | some (grown, t) =>
      if !grown && decide (t.cap ≤ t.count + 1) then some (false, t)
      else (seenInsert t k).map fun t => (true, t)
  else (seenInsert t k).map fun t => (true, t)

end SeenInodes

def DIGEST_LEN : ℕ := 16

structure LayoutDonor where
  key : Vector UInt8 DIGEST_LEN
  fileid : ℤ
  deriving DecidableEq, Repr

def donorHash (key : Vector UInt8 DIGEST_LEN) : ℕ :=
  (key.toList.take 8).foldr (fun b h => b.toNat + 256 * h) 0

abbrev LayoutDonors := Table LayoutDonor

namespace LayoutDonors

def zero : LayoutDonor := ⟨Vector.replicate DIGEST_LEN 0, 0⟩

/-- `layout_donors_init()` where it can allocate; the table is not used otherwise. -/
def init : LayoutDonors := Table.empty zero 1024

def donorInsert (t : LayoutDonors) (d : LayoutDonor) : Option LayoutDonors :=
  t.insert LayoutDonor.key donorHash d

def donorGrow (t : LayoutDonors) (g : Growth) : Option (Bool × LayoutDonors) :=
  growTable LayoutDonor.key donorHash zero 24 t g

/-- `layout_donor_add()`, and whether it goes on to insert the donor. -/
def layoutDonorAdd (t : LayoutDonors) (d : LayoutDonor) (g : Growth) :
    Option (Bool × LayoutDonors) :=
  if nearlyFull t then
    match donorGrow t g with
    | none => none
    | some (grown, t) =>
      if !grown then some (false, t) else (donorInsert t d).map fun t => (true, t)
  else (donorInsert t d).map fun t => (true, t)

def layoutDonorFind (t : LayoutDonors) (key : Vector UInt8 DIGEST_LEN) : Option ℤ :=
  match t.search LayoutDonor.key donorHash key with
  | none => none
  | some (_, false) => some 0
  | some (i, true) => t.slots[i]?.map LayoutDonor.fileid

end LayoutDonors

def acceptCall {ε : Type*} (add : Table ε → ε → Growth → Option (Bool × Table ε))
    (s : Table ε × List ε) (call : ε × Growth) : Option (Table ε × List ε) :=
  match add s.1 call.1 call.2 with
  | none => none
  | some (accepted, t) => some (t, if accepted then s.2 ++ [call.1] else s.2)

def seenRun (calls : List (InoKey × Growth)) : Option (SeenInodes × List InoKey) :=
  calls.foldlM (acceptCall SeenInodes.markInodeSeen) (SeenInodes.init, [])

def donorRun (offers : List (LayoutDonor × Growth)) : Option (LayoutDonors × List LayoutDonor) :=
  offers.foldlM (acceptCall LayoutDonors.layoutDonorAdd) (LayoutDonors.init, [])

section Tables

variable {ε κ : Type*} [DecidableEq κ] {key : ε → κ} {hash : κ → ℕ} {zero : ε} {size : ℕ}
  {t : Table ε} {es : List ε}

/-- A table that holds the first of each of the accepted entries and has a slot free. Its slots can
be addressed, so the sizes computed from their number do not wrap. -/
structure Serves (key : ε → κ) (hash : κ → ℕ) (t : Table ε) (es : List ε) : Prop where
  holds : t.Holds key hash (Table.kept key es)
  free : t.count + 1 ≤ t.cap
  addressable : t.cap * 16 < 2 ^ 64

theorem Serves.length_lt (h : Serves key hash t es) : (Table.kept key es).length < t.cap := by
  rw [← h.holds.count]
  exact h.free

theorem Serves.nearlyFull_iff (h : Serves key hash t es) :
    nearlyFull t = true ↔ t.cap * 7 ≤ (t.count + 1) * 10 := by
  have hcap := h.addressable
  have hfree := h.free
  rw [nearlyFull, decide_eq_true_iff, wrap64, wrap64, Nat.mod_eq_of_lt (by omega),
    Nat.mod_eq_of_lt (by omega)]

/-- A growth that fails leaves the table; one that succeeds doubles it. -/
theorem Serves.growTable (h : Serves key hash t es) (hsize : 16 ≤ size) (g : Growth) :
    Oans.growTable key hash zero size t g = some (false, t) ∨
      ∃ t', Oans.growTable key hash zero size t g = some (true, t') ∧ Serves key hash t' es ∧
        t'.cap = t.cap * 2 ∧ t'.count = t.count := by
  have hcap := h.addressable
  have hwrap : wrap64 (t.cap * 2) = t.cap * 2 := by
    rw [wrap64, Nat.mod_eq_of_lt (by omega)]
  obtain ⟨m, hm⟩ := h.holds.pow
  unfold Oans.growTable
  simp only [hwrap]
  split
  · next halloc =>
    refine Or.inr ?_
    rw [Bool.and_eq_true, callocs, Bool.and_eq_true, decide_eq_true_iff] at halloc
    have hfits : t.cap * 2 * 16 < 2 ^ 64 :=
      (Nat.mul_le_mul_left (t.cap * 2) hsize).trans_lt halloc.1.2
    have hpow : t.cap * 2 = 2 ^ (m + 1) := by rw [hm, pow_succ]
    obtain ⟨t', hrehash, hholds, hcap'⟩ :=
      h.holds.rehash zero hpow (h.length_lt.le.trans (by omega))
    have hcount : t'.count = t.count := hholds.count.trans h.holds.count.symm
    have hfree := h.free
    exact ⟨t', by rw [hrehash]; rfl, ⟨hholds, by omega, by rw [hcap']; exact hfits⟩, hcap', hcount⟩
  · exact Or.inl rfl

theorem Serves.insert (h : Serves key hash t es) (hroom : t.count + 2 ≤ t.cap) (e : ε) :
    ∃ t', t.insert key hash e = some t' ∧ Serves key hash t' (es ++ [e]) ∧ t'.cap = t.cap := by
  obtain ⟨t', hinsert, hholds, hcap⟩ := h.holds.insert h.length_lt e
  rw [← Table.kept_append_singleton] at hholds
  refine ⟨t', hinsert, ⟨hholds, ?_, hcap ▸ h.addressable⟩, hcap⟩
  have hlength : (Table.kept key (es ++ [e])).length ≤ (Table.kept key es).length + 1 := by
    rw [Table.kept_append_singleton, Table.addNew]
    split <;> simp
  rw [hholds.count, hcap]
  rw [h.holds.count] at hroom
  omega

theorem Serves.of_notNearlyFull (h : Serves key hash t es) (hnot : nearlyFull t = false) :
    t.count + 2 ≤ t.cap := by
  have hlt := (not_congr h.nearlyFull_iff).mp (by simp [hnot])
  omega

/-- The first entry accepted for a key, if there is one, is the one its search ends at. -/
theorem Serves.search (h : Serves key hash t es) (k : κ) :
    (∃ i e, es.find? (fun e => key e = k) = some e ∧ t.slots[i]? = some e ∧
        t.search key hash k = some (i, true)) ∨
      (k ∉ es.map key ∧ ∃ i, t.search key hash k = some (i, false)) := by
  by_cases hk : k ∈ es.map key
  · refine Or.inl ?_
    have hsome : ((Table.kept key es).find? fun e => key e = k).isSome := by
      rw [Table.find?_kept]
      simpa using hk
    obtain ⟨e, he⟩ := Option.isSome_iff_exists.mp hsome
    have hkey : key e = k := by simpa using List.find?_some he
    obtain ⟨i, -, hentry, hsearch⟩ :=
      h.holds.search_of_mem h.length_lt (List.mem_of_find?_eq_some he)
    exact ⟨i, e, by rw [← Table.find?_kept, he], (Table.entry_eq_some_iff.mp hentry).2,
      hkey ▸ hsearch⟩
  · refine Or.inr ⟨hk, ?_⟩
    obtain ⟨d, -, -, -, hsearch⟩ :=
      h.holds.search_of_notMem h.length_lt (mt Table.mem_map_kept.mp hk)
    exact ⟨_, hsearch⟩

/-- Calls that keep the table serving, each accepted or refused, do so over a whole run. -/
theorem Serves.foldlM_accept {add : Table ε → ε → Growth → Option (Bool × Table ε)}
    (hadd : ∀ t es e g, Serves key hash t es → ∃ accepted t', add t e g = some (accepted, t') ∧
      Serves key hash t' (if accepted then es ++ [e] else es))
    (h : Serves key hash t es) (calls : List (ε × Growth)) :
    ∃ t' es', calls.foldlM (acceptCall add) (t, es) = some (t', es ++ es') ∧
      Serves key hash t' (es ++ es') ∧ es'.Sublist (calls.map Prod.fst) := by
  induction calls generalizing t es with
  | nil => exact ⟨t, [], by simp, by simpa using h, List.Sublist.refl _⟩
  | cons c calls ih =>
    obtain ⟨accepted, t₁, hcall, h₁⟩ := hadd t es c.1 c.2 h
    obtain ⟨t', es', hrest, h', hsub⟩ := ih h₁
    rw [List.foldlM_cons, acceptCall, hcall]
    cases accepted with
    | true =>
      refine ⟨t', c.1 :: es', ?_, ?_, hsub.cons_cons c.1⟩
      · simpa using hrest
      · simpa using h'
    | false => exact ⟨t', es', hrest, h', hsub.cons c.1⟩

end Tables

namespace SeenInodes

variable {t : SeenInodes} {es : List InoKey}

theorem serves_init : Serves id home init [] :=
  ⟨Table.holds_empty _ (show 1024 = 2 ^ 10 by norm_num), by decide, by decide⟩

theorem markInodeSeen_spec (t : SeenInodes) (es : List InoKey) (k : InoKey) (g : Growth)
    (h : Serves id home t es) : ∃ accepted t', t.markInodeSeen k g = some (accepted, t') ∧
      Serves id home t' (if accepted then es ++ [k] else es) := by
  have hpos := h.holds.cap_pos
  have hfree := h.free
  rw [markInodeSeen, if_neg hpos.ne']
  cases hfull : nearlyFull t with
  | false =>
    obtain ⟨t', hinsert, h', -⟩ := h.insert (h.of_notNearlyFull hfull) k
    exact ⟨true, t', by simp [seenInsert, hinsert], h'⟩
  | true =>
    rw [if_pos rfl, seenGrow]
    rcases @Serves.growTable _ _ _ id home ⟨0, 0⟩ 16 t es h le_rfl g with hgrow | hgrow
    · rw [hgrow]
      by_cases hlast : t.cap ≤ t.count + 1
      · exact ⟨false, t, by simp [hlast], h⟩
      · obtain ⟨t', hinsert, h', -⟩ := h.insert (by omega) k
        exact ⟨true, t', by simp [hlast, seenInsert, hinsert], h'⟩
    · obtain ⟨t₁, hgrow, h₁, hcap, hcount⟩ := hgrow
      obtain ⟨t', hinsert, h', -⟩ := h₁.insert (by omega) k
      exact ⟨true, t', by rw [hgrow]; simp [seenInsert, hinsert], h'⟩

theorem seenInode_eq (h : Serves id home t es) (k : InoKey) :
    t.seenInode k = some (decide (k ∈ es)) := by
  rw [seenInode, if_neg h.holds.cap_pos.ne']
  rcases h.search k with ⟨i, e, hfind, -, hsearch⟩ | ⟨hnot, i, hsearch⟩
  · have hkey : e = k := by simpa using List.find?_some hfind
    have hmem : k ∈ es := hkey ▸ List.mem_of_find?_eq_some hfind
    simp [hsearch, hmem]
  · rw [List.map_id] at hnot
    simp [hsearch, hnot]

end SeenInodes

namespace LayoutDonors

variable {t : LayoutDonors} {es : List LayoutDonor}

theorem serves_init : Serves LayoutDonor.key donorHash init [] :=
  ⟨Table.holds_empty _ (show 1024 = 2 ^ 10 by norm_num), by decide, by decide⟩

theorem layoutDonorAdd_spec (t : LayoutDonors) (es : List LayoutDonor) (d : LayoutDonor)
    (g : Growth) (h : Serves LayoutDonor.key donorHash t es) :
    ∃ accepted t', t.layoutDonorAdd d g = some (accepted, t') ∧
      Serves LayoutDonor.key donorHash t' (if accepted then es ++ [d] else es) := by
  have hpos := h.holds.cap_pos
  have hfree := h.free
  rw [layoutDonorAdd]
  cases hfull : nearlyFull t with
  | false =>
    obtain ⟨t', hinsert, h', -⟩ := h.insert (h.of_notNearlyFull hfull) d
    exact ⟨true, t', by simp [donorInsert, hinsert], h'⟩
  | true =>
    rw [if_pos rfl, donorGrow]
    rcases @Serves.growTable _ _ _ _ _ zero 24 t es h (by omega) g with hgrow | hgrow
    · exact ⟨false, t, by rw [hgrow]; rfl, h⟩
    · obtain ⟨t₁, hgrow, h₁, hcap, hcount⟩ := hgrow
      obtain ⟨t', hinsert, h', -⟩ := h₁.insert (by omega) d
      exact ⟨true, t', by rw [hgrow]; simp [donorInsert, hinsert], h'⟩

theorem layoutDonorFind_eq (h : Serves LayoutDonor.key donorHash t es)
    (key : Vector UInt8 DIGEST_LEN) : t.layoutDonorFind key =
      some (((es.find? fun d => d.key = key).map LayoutDonor.fileid).getD 0) := by
  rw [layoutDonorFind]
  rcases h.search key with ⟨i, d, hfind, hslot, hsearch⟩ | ⟨hnot, i, hsearch⟩
  · simp [hsearch, hslot, hfind]
  · have hnone : es.find? (fun d => d.key = key) = none := by
      simpa using hnot
    simp [hsearch, hnone]

end LayoutDonors

/-- Whatever is inserted and whichever allocations fail, every call returns and a slot stays free.
A lookup knows exactly what was accepted, from then on; the donor found is the first one accepted
for its key; the count is that of the keys. -/
theorem slot_tables_correct :
    (∀ calls, ∃ t es, seenRun calls = some (t, es) ∧ es.Sublist (calls.map Prod.fst) ∧
      (∀ k, t.seenInode k = some (decide (k ∈ es))) ∧
      t.count = es.toFinset.card ∧ (∃ i < t.cap, bit t.used i = false) ∧
      ∀ more, ∃ t' es', seenRun (calls ++ more) = some (t', es ++ es') ∧
        ∀ k ∈ es, t'.seenInode k = some true) ∧
    ∀ offers, ∃ t es, donorRun offers = some (t, es) ∧ es.Sublist (offers.map Prod.fst) ∧
      (∀ key, t.layoutDonorFind key =
        some (((es.find? fun d => d.key = key).map LayoutDonor.fileid).getD 0)) ∧
      t.count = (es.map LayoutDonor.key).toFinset.card ∧ (∃ i < t.cap, bit t.used i = false) ∧
      ∀ more, ∃ t' es', donorRun (offers ++ more) = some (t', es ++ es') ∧
        ∀ d, es.find? (fun d' => d'.key = d.key) = some d →
          t'.layoutDonorFind d.key = some d.fileid := by
  constructor
  · intro calls
    obtain ⟨t, es, hrun, h, hsub⟩ :=
      SeenInodes.serves_init.foldlM_accept SeenInodes.markInodeSeen_spec calls
    rw [List.nil_append] at hrun h
    refine ⟨t, es, hrun, hsub, SeenInodes.seenInode_eq h, ?_,
      h.holds.exists_free h.length_lt, fun more => ?_⟩
    · rw [h.holds.count_kept, List.map_id]
    · obtain ⟨t', es', hmore, h', -⟩ := h.foldlM_accept SeenInodes.markInodeSeen_spec more
      refine ⟨t', es', by rw [seenRun, List.foldlM_append, hrun]; exact hmore, fun k hk => ?_⟩
      rw [SeenInodes.seenInode_eq h', decide_eq_true (List.mem_append_left es' hk)]
  · intro offers
    obtain ⟨t, es, hrun, h, hsub⟩ :=
      LayoutDonors.serves_init.foldlM_accept LayoutDonors.layoutDonorAdd_spec offers
    rw [List.nil_append] at hrun h
    refine ⟨t, es, hrun, hsub, LayoutDonors.layoutDonorFind_eq h, h.holds.count_kept,
      h.holds.exists_free h.length_lt, fun more => ?_⟩
    obtain ⟨t', es', hmore, h', -⟩ := h.foldlM_accept LayoutDonors.layoutDonorAdd_spec more
    refine ⟨t', es', by rw [donorRun, List.foldlM_append, hrun]; exact hmore, fun d hd => ?_⟩
    rw [LayoutDonors.layoutDonorFind_eq h', List.find?_append, hd]
    rfl

/-- Short of 70% of the slots no offer is refused. -/
theorem donorRun_of_length_le {offers : List (LayoutDonor × Growth)} (h : offers.length ≤ 716) :
    ∃ t, donorRun offers = some (t, offers.map Prod.fst) ∧
      Serves LayoutDonor.key donorHash t (offers.map Prod.fst) ∧ t.cap = 1024 := by
  induction offers using List.reverseRecOn with
  | nil => exact ⟨LayoutDonors.init, rfl, LayoutDonors.serves_init, rfl⟩
  | append_singleton offers offer ih =>
    rw [List.length_append, List.length_singleton] at h
    obtain ⟨t, hrun, hserves, hcap⟩ := ih (by omega)
    have hcount : t.count ≤ offers.length := by
      have hcard := ((offers.map Prod.fst).map LayoutDonor.key).toFinset_card_le
      rw [hserves.holds.count_kept]
      simpa using hcard
    have hnot : nearlyFull t = false := by
      refine Bool.eq_false_of_not_eq_true (mt hserves.nearlyFull_iff.mp ?_)
      omega
    obtain ⟨t', hinsert, hserves', hcap'⟩ :=
      hserves.insert (hserves.of_notNearlyFull hnot) offer.1
    refine ⟨t', ?_, by simpa using hserves', hcap'.trans hcap⟩
    have hadd : t.layoutDonorAdd offer.1 offer.2 = some (true, t') := by
      simp [LayoutDonors.layoutDonorAdd, hnot, LayoutDonors.donorInsert, hinsert]
    rw [donorRun, List.foldlM_append, ← donorRun, hrun]
    simp [acceptCall, hadd]

def numberedKey (n : ℕ) : Vector UInt8 DIGEST_LEN :=
  Vector.ofFn fun i => if i.val = 0 then UInt8.ofNat n else if i.val = 1 then UInt8.ofNat (n / 256)
    else 0

theorem numberedKey_inj {m n : ℕ} (hm : m < 65536) (hn : n < 65536)
    (h : numberedKey m = numberedKey n) : m = n := by
  have hfirst : 0 < DIGEST_LEN := by decide
  have hsecond : 1 < DIGEST_LEN := by decide
  have h0 : UInt8.ofNat m = UInt8.ofNat n := by
    simpa [numberedKey] using congrArg (fun k => k[0]) h
  have h1 : UInt8.ofNat (m / 256) = UInt8.ofNat (n / 256) := by
    simpa [numberedKey] using congrArg (fun k => k[1]) h
  have hlow := congrArg UInt8.toNat h0
  have hhigh := congrArg UInt8.toNat h1
  simp only [UInt8.toNat_ofNat'] at hlow hhigh
  omega

/-- An offer that was refused is forgotten, and the next one for its key is taken: after 716 donors
the table has to grow, and cannot for the first of two more. -/
theorem refusedDonor_forgotten : ¬ ∀ offers t es, donorRun offers = some (t, es) → ∀ d ∈ es,
    t.layoutDonorFind d.key =
      ((offers.map Prod.fst).find? fun d' => d'.key = d.key).map LayoutDonor.fileid := by
  intro hclaim
  obtain ⟨few, hfew⟩ : ∃ few, few = (List.range 716).map fun n =>
    ((⟨numberedKey n, 3⟩, ⟨true, true⟩) : LayoutDonor × Growth) := ⟨_, rfl⟩
  have hlength : few.length = 716 := by simp [hfew]
  obtain ⟨t, hrun, hserves, hcap⟩ := donorRun_of_length_le hlength.le
  have hkeys : (few.map Prod.fst).map LayoutDonor.key = (List.range 716).map numberedKey := by
    rw [hfew, List.map_map, List.map_map]
    rfl
  have hcount : t.count = 716 := by
    rw [hserves.holds.count_kept, hkeys, List.toFinset_card_of_nodup, List.length_map,
      List.length_range]
    refine List.nodup_range.map_on fun m hm n hn heq => ?_
    rw [List.mem_range] at hm hn
    exact numberedKey_inj (by omega) (by omega) heq
  have hnew : numberedKey 716 ∉ (few.map Prod.fst).map LayoutDonor.key := by
    rw [hkeys, List.mem_map]
    rintro ⟨n, hn, heq⟩
    rw [List.mem_range] at hn
    have := numberedKey_inj (by omega) (by omega) heq
    omega
  have hfull : nearlyFull t = true := by
    rw [hserves.nearlyFull_iff]
    omega
  have hrefused : t.layoutDonorAdd ⟨numberedKey 716, 1⟩ ⟨false, true⟩ = some (false, t) := by
    simp [LayoutDonors.layoutDonorAdd, hfull, LayoutDonors.donorGrow, growTable, callocs]
  obtain ⟨accepted, t', hadd, hserves'⟩ :=
    LayoutDonors.layoutDonorAdd_spec t _ ⟨numberedKey 716, 2⟩ ⟨true, true⟩ hserves
  have haccepted : accepted = true := by
    have hgrows : callocs (wrap64 (t.cap * 2)) 24 true = true ∧
        callocs ((wrap64 (t.cap * 2) + 63) / 64) 8 true = true := by
      simp [callocs, wrap64, hcap]
    rw [LayoutDonors.layoutDonorAdd, if_pos hfull, LayoutDonors.donorGrow, growTable] at hadd
    simp only [hgrows.1, hgrows.2, Bool.and_self, if_true] at hadd
    cases hrehash : t.rehash LayoutDonor.key donorHash LayoutDonors.zero (wrap64 (t.cap * 2)) with
    | none => simp [hrehash] at hadd
    | some new =>
      simp only [hrehash, Option.map_some, Bool.not_true, Bool.false_eq_true, if_false,
        Option.map_eq_some_iff, Prod.mk.injEq] at hadd
      obtain ⟨_, -, htrue, -⟩ := hadd
      exact htrue.symm
  subst haccepted
  have hall : donorRun (few ++ [(⟨numberedKey 716, 1⟩, ⟨false, true⟩),
      (⟨numberedKey 716, 2⟩, ⟨true, true⟩)]) =
      some (t', few.map Prod.fst ++ [⟨numberedKey 716, 2⟩]) := by
    rw [donorRun, List.foldlM_append, ← donorRun, hrun]
    simp [acceptCall, hrefused, hadd]
  have hfound := hclaim _ _ _ hall _ (List.mem_append_right _ (List.mem_singleton_self _))
  have hnone : (few.map Prod.fst).find? (fun d => d.key = numberedKey 716) = none := by
    simpa using hnew
  rw [LayoutDonors.layoutDonorFind_eq hserves', if_pos rfl, List.find?_append, hnone,
    List.map_append, List.find?_append, hnone] at hfound
  simp at hfound

end Oans
